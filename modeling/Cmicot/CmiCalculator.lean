import Cmicot.EntropyCalculator

/-!
Conditional mutual information (`cmi_calculator.cpp`, `mutual_information_calculator.cpp`).

A `TCmiCalculator` feeds every bin to the ones of its four entropy calculators that its
role asks for and returns a signed sum of four entropies. `TCmiCalculator.Holds` says
which bins it was given in which role; the order of the calls is irrelevant.

* `incremental_cmi_eq`: the value is `ConditionalMutualInformation` of the three lists.
* `cmiValue_nonneg`, `cmiValue_le_first`, `cmiValue_le_second`: it is non-negative and
  bounded by the entropy of either variable.
-/

namespace Cmicot

open Loop

/-! ### Definitions -/

structure TCmiCalculator where
  firstCondition : TEntropyCalculator
  condition : TEntropyCalculator
  firstSecondCondition : TEntropyCalculator
  secondCondition : TEntropyCalculator

namespace TCmiCalculator

/-- `TCmiCalculator(size_t binSize)`. -/
def ofSize (binSize : ℕ) : TCmiCalculator :=
  ⟨.ofSize binSize, .ofSize binSize, .ofSize binSize, .ofSize binSize⟩

def addFirstVariableBin (cmi : TCmiCalculator) (bin : TBin) : Except Failure TCmiCalculator := do
  let firstCondition ← cmi.firstCondition.addBin bin
  let firstSecondCondition ← cmi.firstSecondCondition.addBin bin
  return { cmi with firstCondition, firstSecondCondition }

def addSecondVariableBin (cmi : TCmiCalculator) (bin : TBin) : Except Failure TCmiCalculator := do
  let secondCondition ← cmi.secondCondition.addBin bin
  let firstSecondCondition ← cmi.firstSecondCondition.addBin bin
  return { cmi with secondCondition, firstSecondCondition }

def addConditionBin (cmi : TCmiCalculator) (bin : TBin) : Except Failure TCmiCalculator := do
  let firstCondition ← cmi.firstCondition.addBin bin
  let condition ← cmi.condition.addBin bin
  let firstSecondCondition ← cmi.firstSecondCondition.addBin bin
  let secondCondition ← cmi.secondCondition.addBin bin
  return ⟨firstCondition, condition, firstSecondCondition, secondCondition⟩

section Generic

variable {R : Type} [Field R] [Log2 R]

def getValueWithConditionBin (cmi : TCmiCalculator) (bin : TBin) : Except Failure R := do
  return (← cmi.firstCondition.getEntropyWithExtraBin bin)
    - (← cmi.condition.getEntropyWithExtraBin bin)
    - (← cmi.firstSecondCondition.getEntropyWithExtraBin bin)
    + (← cmi.secondCondition.getEntropyWithExtraBin bin)

def getValue (cmi : TCmiCalculator) : Except Failure R := do
  return (← cmi.firstCondition.getEntropy) - (← cmi.condition.getEntropy)
    - (← cmi.firstSecondCondition.getEntropy) + (← cmi.secondCondition.getEntropy)

end Generic

/-- One of the three ways to add a bin. -/
inductive Call where
  | first (bin : TBin)
  | second (bin : TBin)
  | condition (bin : TBin)

namespace Call

def bin : Call → TBin
  | first bin => bin
  | second bin => bin
  | condition bin => bin

def asFirst : Call → Option TBin
  | first bin => some bin
  | _ => none

def asSecond : Call → Option TBin
  | second bin => some bin
  | _ => none

def asCondition : Call → Option TBin
  | condition bin => some bin
  | _ => none

end Call

def call (cmi : TCmiCalculator) : Call → Except Failure TCmiCalculator
  | .first bin => cmi.addFirstVariableBin bin
  | .second bin => cmi.addSecondVariableBin bin
  | .condition bin => cmi.addConditionBin bin

/-- The calculator after a sequence of calls on a fresh one. -/
def run (n : ℕ) (calls : List Call) : Except Failure TCmiCalculator := calls.foldlM call (ofSize n)

end TCmiCalculator

structure TMutualInformationCalculator where
  first : TEntropyCalculator

namespace TMutualInformationCalculator

/-- `TMutualInformationCalculator(size_t binSize)`. -/
def ofSize (binSize : ℕ) : TMutualInformationCalculator := ⟨.ofSize binSize⟩

def addFirstVariableBin (mi : TMutualInformationCalculator) (bin : TBin) :
    Except Failure TMutualInformationCalculator := do
  return ⟨← mi.first.addBin bin⟩

def getValueWithSecondVariableBin {R : Type} [Field R] [Log2 R] (mi : TMutualInformationCalculator)
    (bin : TBin) : Except Failure R := do
  return (← mi.first.getEntropy) + entropy [bin] - (← mi.first.getEntropyWithExtraBin bin)

end TMutualInformationCalculator

/-! ### The value of the three roles -/

/-- Conditional mutual information of bins over `n` rows, as a sum of joint entropies. -/
noncomputable def cmiValue (n : ℕ) (first second given : List TBin) : ℝ :=
  jointEntropy n (first ++ given) - jointEntropy n given -
    jointEntropy n (first ++ second ++ given) + jointEntropy n (second ++ given)

namespace TCmiCalculator

/-- The calculator was given these bins in these roles, in some order. -/
structure Holds (cmi : TCmiCalculator) (n : ℕ) (first second given : List TBin) : Prop where
  firstCondition : cmi.firstCondition.Holds n (first ++ given)
  condition : cmi.condition.Holds n given
  firstSecondCondition : cmi.firstSecondCondition.Holds n (first ++ second ++ given)
  secondCondition : cmi.secondCondition.Holds n (second ++ given)

variable {cmi : TCmiCalculator} {n : ℕ} {first second given : List TBin} {bin : TBin}

theorem ofSize_holds (n : ℕ) : (ofSize n).Holds n [] [] [] :=
  ⟨TEntropyCalculator.ofSize_holds n, TEntropyCalculator.ofSize_holds n,
    TEntropyCalculator.ofSize_holds n, TEntropyCalculator.ofSize_holds n⟩

/-- A bin put behind the second part of a list may stand at the end of the first. -/
theorem perm_middle (xs ys : List TBin) (bin : TBin) : (xs ++ ys ++ [bin]).Perm (xs ++ [bin] ++ ys) := by
  rw [List.append_assoc, List.append_assoc]
  exact List.perm_append_comm.append_left xs

theorem Holds.addFirstVariableBin (held : cmi.Holds n first second given) (length : bin.length = n)
    (room : first.length + second.length + given.length < 64) :
    ∃ cmi', cmi.addFirstVariableBin bin = .ok cmi' ∧ cmi'.Holds n (first ++ [bin]) second given := by
  obtain ⟨fc, addedFc, heldFc⟩ := held.firstCondition.addBin length (by simp; omega)
  obtain ⟨fsc, addedFsc, heldFsc⟩ := held.firstSecondCondition.addBin length (by simp; omega)
  refine ⟨⟨fc, cmi.condition, fsc, cmi.secondCondition⟩, ?_, ?_, held.condition, ?_,
    held.secondCondition⟩
  · simp [TCmiCalculator.addFirstVariableBin, addedFc, addedFsc]
  · exact heldFc.perm (perm_middle ..)
  · refine heldFsc.perm ?_
    simpa [List.append_assoc] using perm_middle first (second ++ given) bin

theorem Holds.addSecondVariableBin (held : cmi.Holds n first second given) (length : bin.length = n)
    (room : first.length + second.length + given.length < 64) :
    ∃ cmi', cmi.addSecondVariableBin bin = .ok cmi' ∧ cmi'.Holds n first (second ++ [bin]) given := by
  obtain ⟨sc, addedSc, heldSc⟩ := held.secondCondition.addBin length (by simp; omega)
  obtain ⟨fsc, addedFsc, heldFsc⟩ := held.firstSecondCondition.addBin length (by simp; omega)
  refine ⟨⟨cmi.firstCondition, cmi.condition, fsc, sc⟩, ?_, held.firstCondition, held.condition, ?_, ?_⟩
  · simp [TCmiCalculator.addSecondVariableBin, addedSc, addedFsc]
  · refine heldFsc.perm ?_
    simpa [List.append_assoc] using perm_middle (first ++ second) given bin
  · exact heldSc.perm (perm_middle ..)

theorem Holds.addConditionBin (held : cmi.Holds n first second given) (length : bin.length = n)
    (room : first.length + second.length + given.length < 64) :
    ∃ cmi', cmi.addConditionBin bin = .ok cmi' ∧ cmi'.Holds n first second (given ++ [bin]) := by
  obtain ⟨fc, addedFc, heldFc⟩ := held.firstCondition.addBin length (by simp; omega)
  obtain ⟨c, addedC, heldC⟩ := held.condition.addBin length (by omega)
  obtain ⟨fsc, addedFsc, heldFsc⟩ := held.firstSecondCondition.addBin length (by simp; omega)
  obtain ⟨sc, addedSc, heldSc⟩ := held.secondCondition.addBin length (by simp; omega)
  refine ⟨⟨fc, c, fsc, sc⟩, ?_, ?_, heldC, ?_, ?_⟩
  · simp [TCmiCalculator.addConditionBin, addedFc, addedC, addedFsc, addedSc]
  · simpa [List.append_assoc] using heldFc
  · simpa [List.append_assoc] using heldFsc
  · simpa [List.append_assoc] using heldSc

/-- Whatever `AddFirstVariableBin` accepts ends up in the first variable. -/
theorem Holds.of_addFirstVariableBin {cmi' : TCmiCalculator} (held : cmi.Holds n first second given)
    (added : cmi.addFirstVariableBin bin = .ok cmi') :
    first.length + second.length + given.length < 64 ∧ bin.length = n ∧
      cmi'.Holds n (first ++ [bin]) second given := by
  obtain ⟨fc, -, rest⟩ := bind_eq_ok.mp added
  obtain ⟨fsc, addedFsc, -⟩ := bind_eq_ok.mp rest
  obtain ⟨length, room⟩ := held.firstSecondCondition.of_addBin addedFsc
  rw [List.length_append, List.length_append] at room
  obtain ⟨other, added', held'⟩ := held.addFirstVariableBin length room
  obtain rfl : other = cmi' := Except.ok.inj (added'.symm.trans added)
  exact ⟨room, length, held'⟩

/-- Whatever `AddSecondVariableBin` accepts ends up in the second variable. -/
theorem Holds.of_addSecondVariableBin {cmi' : TCmiCalculator} (held : cmi.Holds n first second given)
    (added : cmi.addSecondVariableBin bin = .ok cmi') :
    first.length + second.length + given.length < 64 ∧ cmi'.Holds n first (second ++ [bin]) given := by
  obtain ⟨sc, -, rest⟩ := bind_eq_ok.mp added
  obtain ⟨fsc, addedFsc, -⟩ := bind_eq_ok.mp rest
  obtain ⟨length, room⟩ := held.firstSecondCondition.of_addBin addedFsc
  rw [List.length_append, List.length_append] at room
  obtain ⟨other, added', held'⟩ := held.addSecondVariableBin length room
  obtain rfl : other = cmi' := Except.ok.inj (added'.symm.trans added)
  exact ⟨room, held'⟩

/-- Whatever `AddConditionBin` accepts ends up in the condition. -/
theorem Holds.of_addConditionBin {cmi' : TCmiCalculator} (held : cmi.Holds n first second given)
    (added : cmi.addConditionBin bin = .ok cmi') :
    first.length + second.length + given.length < 64 ∧ cmi'.Holds n first second (given ++ [bin]) := by
  obtain ⟨fc, -, rest⟩ := bind_eq_ok.mp added
  obtain ⟨c, -, rest⟩ := bind_eq_ok.mp rest
  obtain ⟨fsc, addedFsc, -⟩ := bind_eq_ok.mp rest
  obtain ⟨length, room⟩ := held.firstSecondCondition.of_addBin addedFsc
  rw [List.length_append, List.length_append] at room
  obtain ⟨other, added', held'⟩ := held.addConditionBin length room
  obtain rfl : other = cmi' := Except.ok.inj (added'.symm.trans added)
  exact ⟨room, held'⟩

/-- Whatever `GetValue` returns is the conditional mutual information. -/
theorem Holds.of_getValue {result : ℝ} (held : cmi.Holds n first second given)
    (few : first.length + second.length + given.length ≤ 64) (returned : cmi.getValue = .ok result) :
    0 < n ∧ result = cmiValue n first second given := by
  obtain ⟨fc, gotFc, rest⟩ := bind_eq_ok.mp returned
  obtain ⟨c, gotC, rest⟩ := bind_eq_ok.mp rest
  obtain ⟨fsc, gotFsc, rest⟩ := bind_eq_ok.mp rest
  obtain ⟨sc, gotSc, rest⟩ := bind_eq_ok.mp rest
  obtain ⟨pos, rfl⟩ := held.firstCondition.of_getEntropy (by simp; omega) gotFc
  obtain ⟨-, rfl⟩ := held.condition.of_getEntropy (by omega) gotC
  obtain ⟨-, rfl⟩ := held.firstSecondCondition.of_getEntropy (by simp; omega) gotFsc
  obtain ⟨-, rfl⟩ := held.secondCondition.of_getEntropy (by simp; omega) gotSc
  exact ⟨pos, (Except.ok.inj rest).symm⟩

/-- Whatever `GetValueWithConditionBin` returns is the conditional mutual information. -/
theorem Holds.of_getValueWithConditionBin {result : ℝ} (held : cmi.Holds n first second given)
    (few : first.length + second.length + given.length ≤ 63)
    (returned : cmi.getValueWithConditionBin bin = .ok result) :
    0 < n ∧ result = cmiValue n first second (given ++ [bin]) := by
  obtain ⟨fc, gotFc, rest⟩ := bind_eq_ok.mp returned
  obtain ⟨c, gotC, rest⟩ := bind_eq_ok.mp rest
  obtain ⟨fsc, gotFsc, rest⟩ := bind_eq_ok.mp rest
  obtain ⟨sc, gotSc, rest⟩ := bind_eq_ok.mp rest
  obtain ⟨pos, rfl⟩ := held.firstCondition.of_getEntropyWithExtraBin (by simp; omega) gotFc
  obtain ⟨-, rfl⟩ := held.condition.of_getEntropyWithExtraBin (by omega) gotC
  obtain ⟨-, rfl⟩ := held.firstSecondCondition.of_getEntropyWithExtraBin (by simp; omega) gotFsc
  obtain ⟨-, rfl⟩ := held.secondCondition.of_getEntropyWithExtraBin (by simp; omega) gotSc
  refine ⟨pos, ?_⟩
  rw [← Except.ok.inj rest]
  simp only [cmiValue, List.append_assoc]

theorem Holds.getValue (held : cmi.Holds n first second given) (pos : 0 < n)
    (few : first.length + second.length + given.length ≤ 63) :
    cmi.getValue = .ok (cmiValue n first second given) := by
  simp only [TCmiCalculator.getValue, held.firstCondition.getEntropy pos (by simp; omega),
    held.condition.getEntropy pos (by omega),
    held.firstSecondCondition.getEntropy pos (by simp; omega),
    held.secondCondition.getEntropy pos (by simp; omega), ok_bind, pure_eq_ok, cmiValue]

/-- `GetValue` on all the bins that are admitted: it returns unless the range of the widest
calculator wraps. -/
theorem Holds.getValue_iff (held : cmi.Holds n first second given) (pos : 0 < n)
    (few : first.length + second.length + given.length ≤ 64) (some : first ≠ []) (some' : second ≠ []) :
    (¬ TEntropyCalculator.Wraps n (first ++ second ++ given) →
        cmi.getValue = .ok (cmiValue n first second given)) ∧
      ∀ result : ℝ, cmi.getValue = .ok result → ¬ TEntropyCalculator.Wraps n (first ++ second ++ given) := by
  have firstBins := List.length_pos_of_ne_nil some
  have secondBins := List.length_pos_of_ne_nil some'
  obtain ⟨returns, fine⟩ := held.firstSecondCondition.getEntropy_iff pos (by simp; omega)
  constructor
  · intro notWraps
    simp only [TCmiCalculator.getValue, held.firstCondition.getEntropy pos (by simp; omega),
      held.condition.getEntropy pos (by omega), returns notWraps,
      held.secondCondition.getEntropy pos (by simp; omega), ok_bind, pure_eq_ok, cmiValue]
  · intro result returned
    obtain ⟨_, -, rest⟩ := bind_eq_ok.mp returned
    obtain ⟨_, -, rest⟩ := bind_eq_ok.mp rest
    obtain ⟨_, gotFsc, -⟩ := bind_eq_ok.mp rest
    exact fine _ gotFsc

theorem Holds.getValueWithConditionBin (held : cmi.Holds n first second given) (pos : 0 < n)
    (few : first.length + second.length + given.length ≤ 62) (length : bin.length = n) :
    cmi.getValueWithConditionBin bin = .ok (cmiValue n first second (given ++ [bin])) := by
  simp only [TCmiCalculator.getValueWithConditionBin,
    held.firstCondition.getEntropyWithExtraBin pos (by simp; omega) length,
    held.condition.getEntropyWithExtraBin pos (by omega) length,
    held.firstSecondCondition.getEntropyWithExtraBin pos (by simp; omega) length,
    held.secondCondition.getEntropyWithExtraBin pos (by simp; omega) length, ok_bind, pure_eq_ok,
    cmiValue, List.append_assoc]

/-! ### Sequences of calls -/

/-- The calculator holds what the calls gave it. -/
def HoldsCalls (cmi : TCmiCalculator) (n : ℕ) (calls : List Call) : Prop :=
  cmi.Holds n (calls.filterMap Call.asFirst) (calls.filterMap Call.asSecond)
    (calls.filterMap Call.asCondition)

/-- Every call has exactly one role. -/
theorem roles_length (calls : List Call) :
    (calls.filterMap Call.asFirst).length + (calls.filterMap Call.asSecond).length +
      (calls.filterMap Call.asCondition).length = calls.length := by
  induction calls with
  | nil => rfl
  | cons c calls ih =>
    cases c <;> simp [List.filterMap_cons, Call.asFirst, Call.asSecond, Call.asCondition] <;> omega

theorem HoldsCalls.step {calls : List Call} (held : cmi.HoldsCalls n calls) (c : Call)
    (length : c.bin.length = n) (room : calls.length < 64) :
    ∃ cmi', cmi.call c = .ok cmi' ∧ cmi'.HoldsCalls n (calls ++ [c]) := by
  rw [← roles_length] at room
  simp only [HoldsCalls, List.filterMap_append] at held ⊢
  cases c with
  | first bin =>
    simpa [List.filterMap_cons, Call.asFirst, Call.asSecond, Call.asCondition, call] using
      held.addFirstVariableBin (show bin.length = n from length) room
  | second bin =>
    simpa [List.filterMap_cons, Call.asFirst, Call.asSecond, Call.asCondition, call] using
      held.addSecondVariableBin (show bin.length = n from length) room
  | condition bin =>
    simpa [List.filterMap_cons, Call.asFirst, Call.asSecond, Call.asCondition, call] using
      held.addConditionBin (show bin.length = n from length) room

/-- **Up to 64 calls in any order go through.** -/
theorem run_holds {calls : List Call} (length : ∀ c ∈ calls, c.bin.length = n)
    (few : calls.length ≤ 64) : ∃ cmi, run n calls = .ok cmi ∧ cmi.HoldsCalls n calls :=
  foldlM_ok (P := fun done (cmi : TCmiCalculator) => cmi.HoldsCalls n done) (ofSize_holds n)
    fun _ c _ mem short held => held.step c (length c mem) (by omega)

theorem Holds.perm {first' second' given' : List TBin} (held : cmi.Holds n first second given)
    (pf : first.Perm first') (ps : second.Perm second') (pg : given.Perm given') :
    cmi.Holds n first' second' given' :=
  ⟨held.firstCondition.perm (pf.append pg), held.condition.perm pg,
    held.firstSecondCondition.perm ((pf.append ps).append pg), held.secondCondition.perm (ps.append pg)⟩

end TCmiCalculator

/-! ### Bounds -/

section Bounds

variable {n : ℕ} {first second given : List TBin}

theorem cmiValue_nonneg : 0 ≤ cmiValue n first second given := by
  have := jointEntropy_submodular n first second given
  unfold cmiValue
  linarith

theorem jointEntropy_append_le (pos : 0 < n) (xs ys : List TBin) :
    jointEntropy n (xs ++ ys) ≤ jointEntropy n xs + jointEntropy n ys := by
  have := jointEntropy_submodular n xs ys []
  simpa [jointEntropy_nil pos] using this

theorem cmiValue_le_first (pos : 0 < n) : cmiValue n first second given ≤ jointEntropy n first := by
  have split := jointEntropy_append_le pos first given
  have more : jointEntropy n (second ++ given) ≤ jointEntropy n (first ++ second ++ given) :=
    jointEntropy_mono (by simp)
  unfold cmiValue
  linarith

theorem cmiValue_le_second (pos : 0 < n) : cmiValue n first second given ≤ jointEntropy n second := by
  have split := jointEntropy_append_le pos second given
  have more : jointEntropy n (first ++ given) ≤ jointEntropy n (first ++ second ++ given) :=
    jointEntropy_mono (by intro bin; simp; tauto)
  unfold cmiValue
  linarith

/-- The value depends on the partition of the condition, and on that of all bins but the first. -/
theorem cmiValue_congr_all {second' given' : List TBin} (sameGiven : SamePartition n given given')
    (sameAll : SamePartition n (second ++ given) (second' ++ given')) :
    cmiValue n first second given = cmiValue n first second' given' := by
  have refl : SamePartition n first first := fun _ _ _ _ => Iff.rfl
  rw [cmiValue, cmiValue, List.append_assoc, List.append_assoc, jointEntropy_congr sameGiven,
    jointEntropy_congr sameAll, jointEntropy_congr (refl.append sameGiven), jointEntropy_congr (refl.append sameAll)]

/-- Bins that the condition determines say nothing. -/
theorem cmiValue_of_determines (determines : Determines n given second) : cmiValue n first second given = 0 := by
  have nothing : cmiValue n first second given = cmiValue n first [] given :=
    cmiValue_congr_all (fun _ _ _ _ => Iff.rfl) determines.samePartition
  rw [nothing, cmiValue, List.append_nil, List.nil_append]
  ring

/-- Nothing is left to say about bins that the condition determines. -/
theorem cmiValue_of_determines_first (determines : Determines n given first) :
    cmiValue n first second given = 0 := by
  have all : Determines n (second ++ given) first := determines.mono (by simp) (List.Subset.refl _)
  rw [cmiValue, List.append_assoc, jointEntropy_congr determines.samePartition, jointEntropy_congr all.samePartition]
  ring

/-- Second bins that determine the first ones leave nothing but the condition to know. -/
theorem cmiValue_of_determines_second (determines : Determines n (second ++ given) first) :
    cmiValue n first second given = jointEntropy n (first ++ given) - jointEntropy n given := by
  rw [cmiValue, List.append_assoc, jointEntropy_congr determines.samePartition]
  ring

/-- A larger condition leaves less to know. -/
theorem jointEntropy_given_antitone (more : List TBin) :
    jointEntropy n (first ++ (given ++ more)) - jointEntropy n (given ++ more) ≤
      jointEntropy n (first ++ given) - jointEntropy n given := by
  have split := jointEntropy_submodular n first more given
  have all : jointEntropy n (first ++ more ++ given) = jointEntropy n (first ++ (given ++ more)) :=
    jointEntropy_perm (by rw [List.append_assoc]; exact List.perm_append_comm.append_left first)
  have given' : jointEntropy n (more ++ given) = jointEntropy n (given ++ more) :=
    jointEntropy_perm List.perm_append_comm
  linarith

/-- **The chain rule.** -/
theorem cmiValue_append (extra : List TBin) : cmiValue n first (second ++ extra) given =
    cmiValue n first second given + cmiValue n first extra (second ++ given) := by
  have all : jointEntropy n (first ++ (second ++ extra) ++ given) =
      jointEntropy n (first ++ extra ++ (second ++ given)) :=
    jointEntropy_congr (samePartition_of_mem fun bin => by simp; tauto)
  have rest : jointEntropy n (second ++ extra ++ given) = jointEntropy n (extra ++ (second ++ given)) :=
    jointEntropy_congr (samePartition_of_mem fun bin => by simp; tauto)
  rw [cmiValue, cmiValue, cmiValue, all, rest, List.append_assoc first second given]
  ring

/-- Every value of a run is below the initial entries of the cached minimising steps. -/
theorem cmiValue_lt_hundredThousand (pos : 0 < n) (few : first.length ≤ 64) :
    cmiValue n first second given < 100000 := by
  have bits : cmiValue n first second given ≤ first.length :=
    (cmiValue_le_first pos).trans (jointEntropy_le_length pos first)
  have : (first.length : ℝ) ≤ 64 := by exact_mod_cast few
  linarith

end Bounds

/-! ### The batch functions -/

/-- `ConditionalMutualInformation` of bins of one length. -/
theorem conditionalMutualInformation_eq {n : ℕ} (pos : 0 < n) {first second given : List TBin}
    (length : ∀ bin ∈ first ++ second ++ given, bin.length = n)
    (few : first.length + second.length + given.length ≤ 64) (some : given ≠ []) :
    conditionalMutualInformation first second given = cmiValue n first second given := by
  have lengthFirst : ∀ bin ∈ first, bin.length = n := fun bin hb => length bin (by simp [hb])
  have lengthSecond : ∀ bin ∈ second, bin.length = n := fun bin hb => length bin (by simp [hb])
  have lengthGiven : ∀ bin ∈ given, bin.length = n := fun bin hb => length bin (by simp [hb])
  have base : flattenInto [] given = codes n given := flattenBins_eq pos some lengthGiven
  simp only [conditionalMutualInformation, base, flattenInto_codes pos _ lengthFirst,
    flattenInto_codes pos _ lengthSecond]
  have value : ∀ bins : List TBin, bins.length ≤ 64 →
      entropyOfValues (codes n bins) = jointEntropy n bins := fun _ => entropyOfValues_codes
  rw [value given (by omega), value (given ++ first) (by simp; omega),
    value (given ++ first ++ second) (by simp; omega), value (given ++ second) (by simp; omega),
    cmiValue, jointEntropy_perm (show (given ++ first).Perm (first ++ given) from List.perm_append_comm),
    jointEntropy_perm (show (given ++ second).Perm (second ++ given) from List.perm_append_comm),
    List.append_assoc given, jointEntropy_perm
      (show (given ++ (first ++ second)).Perm (first ++ second ++ given) from List.perm_append_comm)]

namespace TMutualInformationCalculator

/-- The calculator after adding the bins of the first variable. -/
def run (n : ℕ) (first : List TBin) : Except Failure TMutualInformationCalculator :=
  first.foldlM addFirstVariableBin (ofSize n)

theorem run_holds {n : ℕ} {first : List TBin} (length : ∀ bin ∈ first, bin.length = n)
    (few : first.length ≤ 64) : ∃ mi, run n first = .ok mi ∧ mi.first.Holds n first :=
  foldlM_ok (P := fun done (mi : TMutualInformationCalculator) => mi.first.Holds n done)
    (TEntropyCalculator.ofSize_holds n) fun _ bin _ mem short held => by
      obtain ⟨ec, added, held'⟩ := held.addBin (length bin mem) (by omega)
      exact ⟨⟨ec⟩, by simp [addFirstVariableBin, added], held'⟩

/-- Mutual information is the conditional one without a condition. -/
theorem getValueWithSecondVariableBin_eq {n : ℕ} {first : List TBin} {mi : TMutualInformationCalculator}
    {bin : TBin} (held : mi.first.Holds n first) (pos : 0 < n) (few : first.length ≤ 62)
    (length : bin.length = n) :
    mi.getValueWithSecondVariableBin bin = .ok (cmiValue n first [bin] []) := by
  have single : entropy [bin] = jointEntropy n [bin] :=
    TEntropyCalculator.entropyOfValues_flattenBins pos (by simp) (by simp) (by simpa using length)
  simp only [getValueWithSecondVariableBin, held.getEntropy pos (by omega),
    held.getEntropyWithExtraBin pos few length, single, ok_bind, pure_eq_ok, cmiValue,
    List.append_nil, jointEntropy_nil pos, sub_zero]
  congr 1
  ring

end TMutualInformationCalculator

namespace TCmiCalculator

variable {n : ℕ} {first second given : List TBin} {calls : List Call}

/-- The calls give the three lists, each in some order. -/
structure Gives (calls : List Call) (first second given : List TBin) : Prop where
  first : (calls.filterMap Call.asFirst).Perm first
  second : (calls.filterMap Call.asSecond).Perm second
  condition : (calls.filterMap Call.asCondition).Perm given

theorem Gives.length_eq (gives : Gives calls first second given) :
    calls.length = first.length + second.length + given.length := by
  rw [← roles_length, gives.first.length_eq, gives.second.length_eq, gives.condition.length_eq]

theorem Gives.bin_mem (gives : Gives calls first second given) {c : Call} (mem : c ∈ calls) :
    c.bin ∈ first ++ second ++ given := by
  rw [List.mem_append, List.mem_append, ← gives.first.mem_iff, ← gives.second.mem_iff,
    ← gives.condition.mem_iff]
  simp only [List.mem_filterMap]
  cases c with
  | first bin => exact .inl (.inl ⟨_, mem, rfl⟩)
  | second bin => exact .inl (.inr ⟨_, mem, rfl⟩)
  | condition bin => exact .inr ⟨_, mem, rfl⟩

/-- Any interleaving of the calls leads to a calculator that holds the three lists. -/
theorem Gives.run_holds (gives : Gives calls first second given)
    (length : ∀ bin ∈ first ++ second ++ given, bin.length = n)
    (few : first.length + second.length + given.length ≤ 64) :
    ∃ cmi, run n calls = .ok cmi ∧ cmi.Holds n first second given := by
  obtain ⟨cmi, ran, held⟩ := TCmiCalculator.run_holds
    (fun c mem => length _ (gives.bin_mem mem)) (by rw [gives.length_eq]; exact few)
  exact ⟨cmi, ran, Holds.perm held gives.first gives.second gives.condition⟩

/-- **Incremental and batch conditional mutual information agree**, for every interleaving
of the calls; an extra condition bin is a condition bin, and without a condition and with
one second bin the value is that of the mutual information calculator. -/
theorem incremental_cmi_eq (pos : 0 < n) (length : ∀ bin ∈ first ++ second ++ given, bin.length = n)
    (few : first.length + second.length + given.length ≤ 62)
    (gives : Gives calls first second given) :
    ∃ cmi, run n calls = .ok cmi ∧
      (given ≠ [] → cmi.getValue = .ok (conditionalMutualInformation (R := ℝ) first second given)) ∧
      (∀ bin : TBin, bin.length = n → ∃ value : ℝ, cmi.getValueWithConditionBin bin = .ok value ∧
        (cmi.addConditionBin bin >>= getValue) = .ok value) ∧
      ∀ bin first', given = [] → first ≠ [] → second = [bin] → first'.Perm first →
        ∃ value : ℝ, cmi.getValue = .ok value ∧
          (TMutualInformationCalculator.run n first' >>=
            fun mi => mi.getValueWithSecondVariableBin bin) = .ok value := by
  obtain ⟨cmi, ran, held⟩ := gives.run_holds length (by omega)
  refine ⟨cmi, ran, fun some => ?_, fun bin size => ?_, ?_⟩
  · rw [held.getValue pos (by omega), conditionalMutualInformation_eq pos length (by omega) some]
  · obtain ⟨cmi', added, held'⟩ := held.addConditionBin size (by omega)
    refine ⟨_, held.getValueWithConditionBin pos few size, ?_⟩
    rw [added, ok_bind, held'.getValue pos (by simp; omega)]
  · rintro bin first' rfl - rfl perm
    have size : bin.length = n := length bin (by simp)
    have sizes : ∀ b ∈ first', b.length = n := fun b hb => length b (by simp [perm.mem_iff.mp hb])
    have fewFirst : first'.length ≤ 62 := by rw [perm.length_eq]; omega
    obtain ⟨mi, ranMi, heldMi⟩ := TMutualInformationCalculator.run_holds sizes (by omega)
    refine ⟨_, held.getValue pos (by simp at few ⊢; omega), ?_⟩
    rw [ranMi, ok_bind, TMutualInformationCalculator.getValueWithSecondVariableBin_eq
      (heldMi.perm perm) pos (by rwa [← perm.length_eq]) size]

/-- Two bins of the first variable, with the condition and the second variable between them. -/
def mixedCalls : List Call :=
  [.first [false, false, true, true], .condition [true, true, true, false], .second [false, true, true, false],
    .first [false, true, false, true]]

theorem incremental_cmi_fourRows :
    ∃ cmi, run 4 mixedCalls = .ok cmi ∧
      cmi.getValue = .ok (conditionalMutualInformation (R := ℝ) [[false, false, true, true], [false, true, false, true]]
        [[false, true, true, false]] [[true, true, true, false]]) ∧
      ∃ value : ℝ, cmi.getValueWithConditionBin [false, false, false, true] = .ok value ∧
        (cmi.addConditionBin [false, false, false, true] >>= getValue) = .ok value := by
  obtain ⟨cmi, ran, value, extra, -⟩ := @incremental_cmi_eq 4
    [[false, false, true, true], [false, true, false, true]] [[false, true, true, false]] [[true, true, true, false]]
    mixedCalls (by decide) (by decide) (by decide) ⟨.refl _, .refl _, .refl _⟩
  exact ⟨cmi, ran, value (by decide), extra _ (by decide)⟩

end TCmiCalculator

end Cmicot
