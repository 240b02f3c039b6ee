import Cmicot.Bin
import Cmicot.Lib.Empirical
import Mathlib.Data.Fintype.Fin
import Mathlib.Data.List.OfFn

/-!
Packed rows and the entropy of a column of codes (`entropy.h`, `entropy.cpp`).

Bins are combined by shifting them, one bit each, into a 64-bit code per row. Every
entropy of the program is the entropy of such a column of codes, computed from the
frequencies of its values. The number type `R` and its logarithm are parameters: the
code runs over any field with a decidable order, and the theorems are about `ℝ`.

* `rowCode_inj`: up to 64 bins, codes separate exactly the rows that differ.
* `sum_countValues`: the frequency table is a faithful count.
* `entropyOfValues_eq`: `Entropy` is the empirical entropy of the column.
-/

namespace Cmicot

open Finset (univ)

/-- `Log2` of `util/generic/ymath.h` for the number type of the model. -/
class Log2 (R : Type) where
  log2 : R → R

export Log2 (log2)

noncomputable instance : Log2 ℝ := ⟨Real.logb (2 : ℕ)⟩

theorem log2_real (x : ℝ) : log2 x = Real.logb 2 x := rfl

/-! ### Definitions -/

/-- `value <<= 1; if (bit) value |= 1;` on a `ui64`. -/
def pushBit (value : UInt64) (bit : Bool) : UInt64 :=
  if bit then value <<< 1 ||| 1 else value <<< 1

/-- The loop of `Impl::Flatten`: it stops at the end of the shorter vector. -/
def flattenLoop : List UInt64 → TBin → List UInt64
  | value :: values, bit :: bits => pushBit value bit :: flattenLoop values bits
  | values, _ => values

/-- `Impl::Flatten(result, bin)`. -/
def flatten (result : List UInt64) (bin : TBin) : List UInt64 :=
  flattenLoop (if result.isEmpty then List.replicate bin.length 0 else result) bin

/-- `Impl::FlattenBins(result, bins)`. -/
def flattenInto (result : List UInt64) (bins : List TBin) : List UInt64 := bins.foldl flatten result

/-- `FlattenBins(bins)`. -/
def flattenBins (bins : List TBin) : List UInt64 := flattenInto [] bins

/-- `++count[value]` on a hash map, kept as an association list. -/
def bump (value : UInt64) : List (UInt64 × ℕ) → List (UInt64 × ℕ)
  | [] => [(value, 1)]
  | (key, n) :: rest => if key = value then (key, n + 1) :: rest else (key, n) :: bump value rest

/-- The frequency table of a column. -/
def countValues (values : List UInt64) : List (UInt64 × ℕ) :=
  values.foldl (fun table value => bump value table) []

section Generic

variable {R : Type} [Field R] [Log2 R]

/-- `kv * Log2(1.0 * kv / total)`. -/
def countTerm (total kv : ℕ) : R := kv * log2 ((1 : R) * kv / total)

/-- The loop over a hash map of counts and the final `-result / total`. The iteration
order of the map does not matter for an exact sum. -/
def entropyOfTable (table : List (UInt64 × ℕ)) (total : ℕ) : R :=
  -table.foldl (fun result kv => result + countTerm total kv.2) 0 / total

/-- `Entropy(const yvector<ui64>&)`. -/
def entropyOfValues (values : List UInt64) : R := entropyOfTable (countValues values) values.length

/-- `Entropy(bins)`. -/
def entropy (bins : List TBin) : R := entropyOfValues (flattenBins bins)

/-- `ConditionalMutualInformation(first, second, condition)`: the condition is flattened
once and extended in place. -/
def conditionalMutualInformation (first second condition : List TBin) : R :=
  let flattenedBins := flattenInto [] condition
  let conditionEntropy := entropyOfValues flattenedBins
  let flattenedBinsCopy := flattenedBins
  let flattenedBins := flattenInto flattenedBins first
  let firstConditionEntropy := entropyOfValues flattenedBins
  let flattenedBins := flattenInto flattenedBins second
  let firstSecondConditionEntropy := entropyOfValues flattenedBins
  let flattenedBinsCopy := flattenInto flattenedBinsCopy second
  let secondConditionEntropy := entropyOfValues flattenedBinsCopy
  firstConditionEntropy - conditionEntropy - firstSecondConditionEntropy + secondConditionEntropy

end Generic

/-! ### Codes of rows -/

/-- The values of the bins at one row. -/
def row (bins : List TBin) (i : ℕ) : List Bool := bins.map fun bin => bin.getD i false

/-- The code a row gets when its bits are pushed in order. -/
def rowCode (bits : List Bool) : UInt64 := bits.foldl pushBit 0

/-- The number whose binary digits are `bits`, most significant first. -/
def bitsValue (bits : List Bool) : ℕ := bits.foldl (fun value bit => 2 * value + bit.toNat) 0

@[simp] theorem row_length (bins : List TBin) (i : ℕ) : (row bins i).length = bins.length :=
  List.length_map ..

theorem rowCode_concat (bits : List Bool) (bit : Bool) :
    rowCode (bits ++ [bit]) = pushBit (rowCode bits) bit := by
  simp [rowCode]

theorem bitsValue_concat (bits : List Bool) (bit : Bool) :
    bitsValue (bits ++ [bit]) = 2 * bitsValue bits + bit.toNat := by
  simp [bitsValue]

theorem toNat_pushBit (value : UInt64) (bit : Bool) :
    (pushBit value bit).toNat = (2 * value.toNat + bit.toNat) % 2 ^ 64 := by
  have shifted : (value <<< 1).toNat = 2 * value.toNat % 2 ^ 64 := by
    simp [UInt64.toNat_shiftLeft, Nat.shiftLeft_eq, Nat.mul_comm]
  cases bit with
  | false => simpa [pushBit] using shifted
  | true =>
    simp only [pushBit, if_true, UInt64.toNat_or, shifted]
    have even : 2 * value.toNat % 2 ^ 64 = 2 ^ 1 * (value.toNat % 2 ^ 63) := by omega
    rw [even, show UInt64.toNat 1 = 1 from rfl,
      ← Nat.two_pow_add_eq_or_of_lt (show 1 < 2 ^ 1 by decide)]
    simp only [Bool.toNat_true]
    omega

theorem bitsValue_lt (bits : List Bool) : bitsValue bits < 2 ^ bits.length := by
  induction bits using List.reverseRecOn with
  | nil => simp [bitsValue]
  | append_singleton bits bit ih =>
    have := Bool.toNat_le bit
    rw [bitsValue_concat, List.length_append, List.length_singleton, Nat.pow_succ]
    omega

/-- Up to 64 bits the code is the exact number. -/
theorem toNat_rowCode {bits : List Bool} (short : bits.length ≤ 64) :
    (rowCode bits).toNat = bitsValue bits := by
  induction bits using List.reverseRecOn with
  | nil => rfl
  | append_singleton bits bit ih =>
    rw [List.length_append, List.length_singleton] at short
    have bound := bitsValue_lt (bits ++ [bit])
    have fits : 2 ^ (bits ++ [bit]).length ≤ 2 ^ 64 :=
      Nat.pow_le_pow_right (by decide) (by simpa using short)
    rw [rowCode_concat, toNat_pushBit, ih (by omega), ← bitsValue_concat, Nat.mod_eq_of_lt (by omega)]

theorem bitsValue_inj {xs ys : List Bool} (length : xs.length = ys.length)
    (same : bitsValue xs = bitsValue ys) : xs = ys := by
  induction xs using List.reverseRecOn generalizing ys with
  | nil => exact (List.length_eq_zero_iff.mp length.symm).symm
  | append_singleton xs x ih =>
    rcases List.eq_nil_or_concat ys with rfl | ⟨ys, y, rfl⟩
    · simp at length
    · rw [List.concat_eq_append] at length same ⊢
      rw [bitsValue_concat, bitsValue_concat] at same
      have := Bool.toNat_le x
      have := Bool.toNat_le y
      have bit : x = y := by
        cases x <;> cases y <;> simp at same ⊢ <;> omega
      rw [ih (by simpa using length) (by omega), bit]

/-- **Codes separate rows**: two rows of at most 64 bins have the same code iff they
agree on every bin. -/
theorem rowCode_inj {xs ys : List Bool} (length : xs.length = ys.length) (short : xs.length ≤ 64) :
    rowCode xs = rowCode ys ↔ xs = ys := by
  refine ⟨fun same => bitsValue_inj length ?_, fun same => same ▸ rfl⟩
  rw [← toNat_rowCode short, ← toNat_rowCode (length ▸ short), same]

/-- The column of codes of a list of bins over `n` rows. -/
def codes (n : ℕ) (bins : List TBin) : List UInt64 := (List.range n).map fun i => rowCode (row bins i)

@[simp] theorem codes_length (n : ℕ) (bins : List TBin) : (codes n bins).length = n := by
  simp [codes]

@[simp] theorem codes_getElem (n : ℕ) (bins : List TBin) (i : ℕ) (h : i < (codes n bins).length) :
    (codes n bins)[i] = rowCode (row bins i) := by
  simp [codes]

theorem codes_nil (n : ℕ) : codes n [] = List.replicate n 0 := by
  apply List.ext_getElem <;> simp [row, rowCode]

theorem row_concat (bins : List TBin) (bin : TBin) (i : ℕ) :
    row (bins ++ [bin]) i = row bins i ++ [bin.getD i false] := by
  simp [row]

/-- Pushing one more bin into every code is coding the extended rows. -/
theorem zipWith_pushBit_codes {n : ℕ} (bins : List TBin) {bin : TBin} (length : bin.length = n) :
    List.zipWith pushBit (codes n bins) bin = codes n (bins ++ [bin]) := by
  apply List.ext_getElem
  · simp [length]
  · intro i h _
    have inside : i < bin.length := by simpa [length] using h
    rw [List.getElem_zipWith, codes_getElem, codes_getElem, row_concat, rowCode_concat,
      ← List.getElem_eq_getD (h := inside) false]

theorem flattenLoop_eq_zipWith {values : List UInt64} {bin : TBin}
    (length : values.length = bin.length) : flattenLoop values bin = List.zipWith pushBit values bin := by
  induction values generalizing bin with
  | nil => simp [flattenLoop]
  | cons value values ih =>
    cases bin with
    | nil => simp at length
    | cons bit bits => simp [flattenLoop, ih (by simpa using length)]

/-- Flattening further bins into a column of codes; the empty column stands for no bins. -/
theorem flattenInto_codes {n : ℕ} (pos : 0 < n) (done : List TBin) {bins : List TBin}
    (length : ∀ bin ∈ bins, bin.length = n) :
    flattenInto (codes n done) bins = codes n (done ++ bins) := by
  induction bins generalizing done with
  | nil => simp [flattenInto]
  | cons bin bins ih =>
    have head : flatten (codes n done) bin = codes n (done ++ [bin]) := by
      have nonempty : (codes n done).isEmpty = false := by
        rw [List.isEmpty_eq_false_iff]
        exact List.ne_nil_of_length_pos (by simpa using pos)
      rw [flatten, nonempty, if_neg Bool.false_ne_true,
        flattenLoop_eq_zipWith (by simp [length bin]), zipWith_pushBit_codes done (length bin (by simp))]
    have tail := ih (done ++ [bin]) fun b hb => length b (List.mem_cons_of_mem _ hb)
    rw [flattenInto, List.foldl_cons, head]
    simpa [flattenInto] using tail

/-- `FlattenBins` of at least one bin is the column of codes. -/
theorem flattenBins_eq {n : ℕ} (pos : 0 < n) {bins : List TBin} (some : bins ≠ [])
    (length : ∀ bin ∈ bins, bin.length = n) : flattenBins bins = codes n bins := by
  cases bins with
  | nil => exact absurd rfl some
  | cons bin bins =>
    have size := length bin (by simp)
    have head : flatten [] bin = codes n [bin] := by
      rw [flatten, List.isEmpty_nil, if_pos rfl, size, ← codes_nil,
        flattenLoop_eq_zipWith (by simp [size]), zipWith_pushBit_codes [] size]
      rfl
    rw [flattenBins, flattenInto, List.foldl_cons, head]
    exact flattenInto_codes pos [bin] fun b hb => length b (List.mem_cons_of_mem _ hb)

/-! ### Frequencies -/

/-- One increment of a table whose keys are distinct. -/
theorem bump_map {keys : List UInt64} (nodup : keys.Nodup) (count : UInt64 → ℕ) (value : UInt64) :
    bump value (keys.map fun key => (key, count key)) =
      if value ∈ keys then keys.map fun key => (key, if key = value then count key + 1 else count key)
      else keys.map (fun key => (key, count key)) ++ [(value, 1)] := by
  induction keys with
  | nil => simp [bump]
  | cons key keys ih =>
    have rest := ih (List.nodup_cons.mp nodup).2
    have fresh := (List.nodup_cons.mp nodup).1
    by_cases hit : key = value
    · subst hit
      have others : ∀ k ∈ keys, k ≠ key := fun k hk same => fresh (same ▸ hk)
      simp only [List.map_cons, bump, if_pos, List.mem_cons_self]
      congr 1
      exact List.map_congr_left fun k hk => by rw [if_neg (others k hk)]
    · simp only [List.map_cons, bump, if_neg hit, rest, List.mem_cons, Ne.symm hit, false_or]
      split <;> simp

/-- **The frequency table is a count**: its keys are the distinct values of the column and
each is stored with its number of occurrences. -/
theorem countValues_spec (values : List UInt64) :
    ∃ keys : List UInt64, keys.Nodup ∧ (∀ v, v ∈ keys ↔ v ∈ values) ∧
      countValues values = keys.map fun key => (key, values.count key) := by
  induction values using List.reverseRecOn with
  | nil => exact ⟨[], List.nodup_nil, by simp, rfl⟩
  | append_singleton values value ih =>
    obtain ⟨keys, nodup, mem, table⟩ := ih
    have step : countValues (values ++ [value]) = bump value (countValues values) := by
      simp [countValues]
    rw [step, table, bump_map nodup]
    by_cases seen : value ∈ keys
    · refine ⟨keys, nodup, fun v => ?_, ?_⟩
      · rw [mem, List.mem_append, List.mem_singleton]
        exact ⟨.inl, fun h => h.elim id fun eq => eq ▸ (mem value).mp seen⟩
      · rw [if_pos seen]
        refine List.map_congr_left fun key _ => ?_
        by_cases hit : key = value
        · simp [hit]
        · simp [hit, Ne.symm hit]
    · refine ⟨keys ++ [value], by simpa using List.Nodup.concat seen nodup, by simp [mem], ?_⟩
      rw [if_neg seen, List.map_append]
      have absent : value ∉ values := fun h => seen ((mem value).mpr h)
      congr 1
      · refine List.map_congr_left fun key hk => ?_
        have : value ≠ key := fun eq => seen (eq ▸ hk)
        simp [this]
      · simp [List.count_eq_zero_of_not_mem absent]

theorem foldl_add_eq_sum {α : Type} (F : α → ℝ) (xs : List α) (start : ℝ) :
    xs.foldl (fun result x => result + F x) start = start + (xs.map F).sum := by
  induction xs generalizing start with
  | nil => simp
  | cons x xs ih => simp [ih, add_assoc]

/-- A sum over the frequency table is a sum over the distinct values. -/
theorem sum_countValues (values : List UInt64) (F : ℕ → ℝ) :
    ((countValues values).map fun kv => F kv.2).sum =
      ∑ v ∈ values.toFinset, F (values.count v) := by
  obtain ⟨keys, nodup, mem, table⟩ := countValues_spec values
  have same : values.toFinset = keys.toFinset := by
    ext v
    simp [mem]
  rw [table, same, List.sum_toFinset _ nodup, List.map_map]
  rfl

/-- The column as a function of the row. -/
def column (values : List UInt64) (i : Fin values.length) : UInt64 := values.get i

theorem freq_column (values : List UInt64) (v : UInt64) :
    Empirical.freq (column values) v = values.count v := by
  have all : (univ : Finset (Fin values.length)).val.map values.get = (values : Multiset UInt64) := by
    rw [Fin.univ_val_map, List.ofFn_get]
  rw [← Multiset.coe_count, ← all, Multiset.count_map]
  change Multiset.card (Multiset.filter (fun i => column values i = v) univ.val) = _
  congr 1
  exact Multiset.filter_congr fun i _ => ⟨Eq.symm, Eq.symm⟩

theorem image_column (values : List UInt64) :
    (univ : Finset (Fin values.length)).image (column values) = values.toFinset := by
  ext v
  simp [column, List.mem_iff_get]

/-- The empirical entropy of a column, as a sum over its distinct values. -/
theorem entropy_column (values : List UInt64) :
    Empirical.entropy (column values) =
      -(∑ v ∈ values.toFinset, countTerm (R := ℝ) values.length (values.count v)) / values.length := by
  unfold Empirical.entropy
  rw [image_column, neg_div, Finset.sum_div]
  congr 1
  refine Finset.sum_congr rfl fun v _ => ?_
  simp only [freq_column, countTerm, log2_real, Fintype.card_fin]
  ring_nf

/-- **`Entropy` is the empirical entropy of the column.** -/
theorem entropyOfValues_eq (values : List UInt64) :
    entropyOfValues values = Empirical.entropy (column values) := by
  rw [entropy_column, entropyOfValues, entropyOfTable,
    foldl_add_eq_sum fun kv : UInt64 × ℕ => countTerm values.length kv.2,
    sum_countValues values (countTerm (R := ℝ) values.length), zero_add]

/-! ### Joint entropy of bins -/

/-- The joint empirical entropy of a list of bins over `n` rows. -/
noncomputable def jointEntropy (n : ℕ) (bins : List TBin) : ℝ :=
  Empirical.entropy fun i : Fin n => row bins i

/-- Two rows agree on every bin of a list. -/
def Agree (bins : List TBin) (i j : ℕ) : Prop := ∀ bin ∈ bins, bin.getD i false = bin.getD j false

theorem row_eq_iff (bins : List TBin) (i j : ℕ) : row bins i = row bins j ↔ Agree bins i j := by
  simp [row, Agree, List.map_inj_left]

/-- The bins of two lists split `n` rows in the same way. -/
def SamePartition (n : ℕ) (xs ys : List TBin) : Prop :=
  ∀ i < n, ∀ j < n, Agree xs i j ↔ Agree ys i j

/-- Joint entropy depends only on the partition of the rows. -/
theorem jointEntropy_congr {n : ℕ} {xs ys : List TBin} (same : SamePartition n xs ys) :
    jointEntropy n xs = jointEntropy n ys :=
  Empirical.entropy_congr fun i j => by
    rw [row_eq_iff, row_eq_iff]
    exact same i i.2 j j.2

theorem samePartition_of_mem {n : ℕ} {xs ys : List TBin} (same : ∀ bin, bin ∈ xs ↔ bin ∈ ys) :
    SamePartition n xs ys :=
  fun _ _ _ _ => ⟨fun h bin hb => h bin ((same bin).mpr hb), fun h bin hb => h bin ((same bin).mp hb)⟩

theorem jointEntropy_perm {n : ℕ} {xs ys : List TBin} (perm : xs.Perm ys) :
    jointEntropy n xs = jointEntropy n ys :=
  jointEntropy_congr (samePartition_of_mem fun _ => perm.mem_iff)

theorem agree_append {xs ys : List TBin} {i j : ℕ} :
    Agree (xs ++ ys) i j ↔ Agree xs i j ∧ Agree ys i j := by
  simp only [Agree, List.forall_mem_append]

theorem SamePartition.append {n : ℕ} {xs xs' ys ys' : List TBin} (left : SamePartition n xs xs')
    (right : SamePartition n ys ys') : SamePartition n (xs ++ ys) (xs' ++ ys') := by
  intro i hi j hj
  rw [agree_append, agree_append, left i hi j hj, right i hi j hj]

/-- Bins that split the rows alike one by one split them alike together. -/
theorem samePartition_of_forall₂ {n : ℕ} {xs ys : List TBin}
    (same : List.Forall₂ (fun x y => SamePartition n [x] [y]) xs ys) : SamePartition n xs ys := by
  induction same with
  | nil => exact fun _ _ _ _ => Iff.rfl
  | cons head _ tail => exact head.append tail

/-- Rows that agree on `xs` agree on `ys`. -/
def Determines (n : ℕ) (xs ys : List TBin) : Prop := ∀ i < n, ∀ j < n, Agree xs i j → Agree ys i j

theorem determines_of_subset {n : ℕ} {xs ys : List TBin} (sub : ys ⊆ xs) : Determines n xs ys :=
  fun _ _ _ _ agree bin mem => agree bin (sub mem)

theorem Determines.mono {n : ℕ} {xs xs' ys ys' : List TBin} (determines : Determines n xs ys) (more : xs ⊆ xs')
    (fewer : ys' ⊆ ys) : Determines n xs' ys' :=
  fun i hi j hj agree bin mem => determines i hi j hj (fun bin mem => agree bin (more mem)) bin (fewer mem)

theorem Determines.append {n : ℕ} {xs ys zs : List TBin} (left : Determines n xs ys) (right : Determines n xs zs) :
    Determines n xs (ys ++ zs) :=
  fun i hi j hj agree => agree_append.mpr ⟨left i hi j hj agree, right i hi j hj agree⟩

/-- Bins that are determined by others may be left out beside them. -/
theorem Determines.samePartition {n : ℕ} {xs ys : List TBin} (determines : Determines n xs ys) :
    SamePartition n (ys ++ xs) xs := by
  intro i hi j hj
  rw [agree_append]
  exact ⟨And.right, fun agree => ⟨determines i hi j hj agree, agree⟩⟩

/-- More bins split the rows further. -/
theorem jointEntropy_mono {n : ℕ} {xs ys : List TBin} (sub : xs ⊆ ys) :
    jointEntropy n xs ≤ jointEntropy n ys := by
  refine Empirical.entropy_mono fun i j same => ?_
  rw [row_eq_iff] at same ⊢
  exact fun bin hb => same bin (sub hb)

/-- Bins that add nothing to the entropy are determined. -/
theorem determines_of_jointEntropy_le {n : ℕ} {xs ys : List TBin}
    (le : jointEntropy n (ys ++ xs) ≤ jointEntropy n xs) : Determines n xs ys := by
  intro i hi j hj agree
  have finer (i j : Fin n) (same : row (ys ++ xs) i = row (ys ++ xs) j) : row xs i = row xs j := by
    rw [row_eq_iff] at same ⊢
    exact (agree_append.mp same).2
  have together : row (ys ++ xs) i = row (ys ++ xs) j :=
    Empirical.eq_of_entropy_le finer le (i := ⟨i, hi⟩) (j := ⟨j, hj⟩) ((row_eq_iff ..).mpr agree)
  exact (agree_append.mp ((row_eq_iff ..).mp together)).1

theorem jointEntropy_nonneg (n : ℕ) (bins : List TBin) : 0 ≤ jointEntropy n bins :=
  Empirical.entropy_nonneg _

theorem jointEntropy_nil {n : ℕ} (pos : 0 < n) : jointEntropy n [] = 0 := by
  have : Nonempty (Fin n) := ⟨⟨0, pos⟩⟩
  exact Empirical.entropy_const fun _ _ => rfl

/-- Submodularity of joint entropy. -/
theorem jointEntropy_submodular (n : ℕ) (xs ys zs : List TBin) :
    jointEntropy n (xs ++ ys ++ zs) + jointEntropy n zs ≤
      jointEntropy n (xs ++ zs) + jointEntropy n (ys ++ zs) := by
  have pair : ∀ us vs, jointEntropy n (us ++ vs) =
      Empirical.entropy fun i : Fin n => (row us i, row vs i) := fun us vs =>
    Empirical.entropy_congr fun i j => by
      rw [row_eq_iff, agree_append, Prod.mk.injEq, row_eq_iff, row_eq_iff]
  have triple : jointEntropy n (xs ++ ys ++ zs) =
      Empirical.entropy fun i : Fin n => (row xs i, row ys i, row zs i) :=
    Empirical.entropy_congr fun i j => by
      rw [row_eq_iff, agree_append, agree_append, Prod.mk.injEq, Prod.mk.injEq, row_eq_iff,
        row_eq_iff, row_eq_iff, and_assoc]
  rw [triple, pair, pair]
  exact Empirical.entropy_submodular (fun i : Fin n => row xs i) (fun i => row ys i) fun i => row zs i

/-- `k` bins carry at most `k` bits. -/
theorem jointEntropy_le_length {n : ℕ} (pos : 0 < n) (bins : List TBin) :
    jointEntropy n bins ≤ bins.length := by
  have : Nonempty (Fin n) := ⟨⟨0, pos⟩⟩
  let table : Fin n → Fin bins.length → Bool := fun i k => (bins.get k).getD i false
  have same : jointEntropy n bins = Empirical.entropy table :=
    Empirical.entropy_congr fun i j => by
      rw [row_eq_iff, funext_iff]
      constructor
      · exact fun agree k => agree _ (List.get_mem bins k)
      · intro agree bin mem
        obtain ⟨k, rfl⟩ := List.mem_iff_get.mp mem
        exact agree k
  have classes : ((univ.image table).card : ℝ) ≤ 2 ^ bins.length := by
    have := Finset.card_le_univ (univ.image table)
    rw [Fintype.card_fun, Fintype.card_bool, Fintype.card_fin] at this
    exact_mod_cast this
  have some : (0 : ℝ) < (univ.image table).card := by
    exact_mod_cast Finset.card_pos.mpr (Finset.univ_nonempty.image table)
  calc jointEntropy n bins = Empirical.entropy table := same
    _ ≤ Real.logb 2 (univ.image table).card := Empirical.entropy_le_logb table
    _ ≤ Real.logb 2 (2 ^ bins.length) := Real.logb_le_logb_of_le one_lt_two some classes
    _ = bins.length := by rw [Real.logb_pow, Real.logb_self_eq_one one_lt_two, mul_one]

/-! ### Complements and row permutations -/

/-- The bin with its rows reordered by `σ`. -/
def permuteRows {n : ℕ} (σ : Equiv.Perm (Fin n)) (bin : TBin) : TBin :=
  List.ofFn fun i => bin.getD (σ i) false

/-- Complement the bins whose position is flagged. -/
def complementBins (flag : ℕ → Bool) (bins : List TBin) : List TBin :=
  bins.mapIdx fun i bin => if flag i then bin.map not else bin

@[simp] theorem complementBins_length (flag : ℕ → Bool) (bins : List TBin) :
    (complementBins flag bins).length = bins.length := by
  simp [complementBins]

theorem length_of_mem_complementBins {n : ℕ} {flag : ℕ → Bool} {bins : List TBin}
    (length : ∀ bin ∈ bins, bin.length = n) : ∀ bin ∈ complementBins flag bins, bin.length = n := by
  intro bin mem
  obtain ⟨i, h, rfl⟩ := List.mem_mapIdx.mp mem
  split
  · rw [List.length_map, length _ (List.getElem_mem h)]
  · exact length _ (List.getElem_mem h)

@[simp] theorem permuteRows_length {n : ℕ} (σ : Equiv.Perm (Fin n)) (bin : TBin) :
    (permuteRows σ bin).length = n := List.length_ofFn

theorem samePartition_not {n : ℕ} {bin : TBin} (length : bin.length = n) :
    SamePartition n [bin.map not] [bin] := by
  intro i hi j hj
  rw [← length] at hi hj
  simp [Agree, hi, hj]

theorem complementBins_samePartition {n : ℕ} (flag : ℕ → Bool) {bins : List TBin}
    (length : ∀ bin ∈ bins, bin.length = n) : SamePartition n (complementBins flag bins) bins := by
  apply samePartition_of_forall₂
  rw [List.forall₂_iff_get]
  refine ⟨by simp, fun i h _ => ?_⟩
  simp only [complementBins, List.get_eq_getElem, List.getElem_mapIdx]
  split
  · exact samePartition_not (length _ (List.getElem_mem _))
  · exact fun _ _ _ _ => Iff.rfl

theorem jointEntropy_complementBins {n : ℕ} (flag : ℕ → Bool) {bins : List TBin}
    (length : ∀ bin ∈ bins, bin.length = n) :
    jointEntropy n (complementBins flag bins) = jointEntropy n bins :=
  jointEntropy_congr (complementBins_samePartition flag length)

theorem getD_permuteRows {n : ℕ} (σ : Equiv.Perm (Fin n)) (bin : TBin) (i : Fin n) :
    (permuteRows σ bin).getD i false = bin.getD (σ i) false := by
  simp [permuteRows, List.getD_eq_getElem?_getD]

theorem jointEntropy_permuteRows {n : ℕ} (σ : Equiv.Perm (Fin n)) (bins : List TBin) :
    jointEntropy n (bins.map (permuteRows σ)) = jointEntropy n bins := by
  have rows : (fun i : Fin n => row (bins.map (permuteRows σ)) i) =
      (fun i : Fin n => row bins i) ∘ σ := by
    funext i
    simp only [row, List.map_map, Function.comp_def, getD_permuteRows]
  rw [jointEntropy, rows, Empirical.entropy_comp_equiv]
  rfl

/-- The entropy of a column of codes is the joint entropy of the bins. -/
theorem entropy_column_codes {n : ℕ} {bins : List TBin} (few : bins.length ≤ 64) :
    Empirical.entropy (column (codes n bins)) = jointEntropy n bins := by
  unfold jointEntropy
  rw [← Empirical.entropy_comp_equiv (fun i : Fin n => row bins i) (finCongr (codes_length n bins))]
  refine Empirical.entropy_congr fun _ _ => ?_
  simp only [column, List.get_eq_getElem, codes_getElem, Function.comp_apply, finCongr_apply,
    Fin.val_cast]
  exact rowCode_inj (by simp) (by simpa using few)

theorem entropyOfValues_codes {n : ℕ} {bins : List TBin} (few : bins.length ≤ 64) :
    entropyOfValues (codes n bins) = jointEntropy n bins := by
  rw [entropyOfValues_eq, entropy_column_codes few]

end Cmicot
