import Mathlib.Data.Rat.Defs

/-!
Bins and the ways a run can stop.

A bin (`bin.h`) is one binary column over the rows of the pool. Every check of the
source that can end a run early has a constructor of `Failure`: exceptions (`Y_ENSURE`,
`ythrow`), aborts (`Y_VERIFY`) and, so that they cannot go unnoticed, the accesses that
are undefined in C++ (an index outside a vector, `*end()`, `front()` of an empty vector).
-/

namespace Cmicot

/-- `using TBin = yvector<bool>`. -/
abbrev TBin := List Bool

inductive Failure where
  /-- `TRangeEx() << index << " " << count`. -/
  | rangeEx (index : ℤ) (count : ℕ)
  /-- `Y_VERIFY(bin.size() == Values.size(), ...)`. -/
  | binSize (values bin : ℕ)
  /-- `Y_VERIFY(++BinCount <= MAX_BIN_COUNT, ...)`. -/
  | tooManyBins
  /-- `ValueCount[value - MinValue]` outside the vector: undefined behaviour. -/
  | counterRange
  /-- `*begin()`, `front()` or `back()` of an empty container: undefined behaviour. -/
  | emptyContainer
  /-- The eval bin is not a bin of the background. -/
  | evalIndex (index : ℤ) (binCount : ℕ)
  /-- Fewer enabled bins than steps. -/
  | notEnoughBins (required : ℤ)
  /-- More entries than the `max_size()` of a vector, also by a negative length converted to `size_t`. -/
  | lengthError
  /-- `Y_VERIFY(bestBinIter != end)`: no candidate is left. -/
  | noCandidate
  /-- `Cache[evalBinIndex]` outside the cache: undefined behaviour. -/
  | cacheRange
  /-- `Y_ENSURE(static_cast<ui32>(value) <= 1, ...)` in `BinarizeWithMap`. -/
  | notBinary (value : ℚ)
  /-- `featureCount + 1` beyond the largest `int`: undefined behaviour. -/
  | intOverflow
  /-- The pool and the map disagree on the number of bins. -/
  | mapSize (poolBins mapBins : ℕ)
  /-- A feature index of the map outside the feature vector: undefined behaviour. -/
  | featureRange
  /-- A bin is named by two lines of the map. -/
  | binTwice (bin : ℕ)
  /-- A bin below the largest one is named by no line of the map. -/
  | binMissing (bin : ℕ)
  /-- `result[binIndex]` outside the map vector: undefined behaviour. -/
  | mapRange
  /-- `bit << binIndex` with a count of 32 or more: undefined behaviour. -/
  | shiftRange
  /-- `bin[row]` outside a bin: undefined behaviour. -/
  | rowRange
  /-- A token of a pool line that is no number. -/
  | notDouble (token : String) (line : ℕ)
  /-- A pool line with another number of columns than the first one of its batch. -/
  | lineColumns (line columns firstLine expected : ℕ)
  /-- Batches of a pool with different numbers of columns. -/
  | poolColumns (result data : ℕ)
  /-- A token of a map line that is no `ui64`. -/
  | notUi64 (token : String)
deriving DecidableEq

end Cmicot
