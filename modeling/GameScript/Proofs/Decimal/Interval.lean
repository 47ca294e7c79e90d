import GameScript.Decimal.Shortest
import Mathlib.Algebra.Order.Field.Power
import Mathlib.Data.Rat.Cast.Order
import Mathlib.Tactic.Linarith
import Mathlib.Tactic.LinearCombination
import Mathlib.Tactic.NormNum
import Mathlib.Tactic.Positivity
import Mathlib.Tactic.Ring

/-! # The shortest digits identify a number

A number is the middle of the interval of all that rounds to it. The intervals of two numbers share
no more than an end, and an end belongs only to the number whose factor is even. The digits that are
chosen for a number lie in its interval, so they are the digits of no other number. -/

namespace GameScript.Decimal

/-! ## Values -/

/-- The factors and scales of finite numbers. Every scale but the least has factors with a leading
one only, so no number has two of them. -/
structure Canonical (factor : Nat) (scale : Int) : Prop where
  least : -1074 ≤ scale
  bound : factor < 2 * leadingOne
  leads : -1074 < scale → leadingOne ≤ factor

/-- What digits stand for. -/
def Digits.value (d : Digits) : ℚ := d.digits * 10 ^ d.exponent

/-- The lower end of the interval that rounds to a number. -/
def lowerEnd (factor : Nat) (scale : Int) : ℚ :=
  (factor - if narrowBelow factor scale then 1 / 4 else 1 / 2) * 2 ^ scale

/-- The upper end of the interval that rounds to a number. -/
def upperEnd (factor : Nat) (scale : Int) : ℚ := (factor + 1 / 2) * 2 ^ scale

/-- A value that rounds to `factor * 2 ^ scale`. -/
def Rounds (factor : Nat) (scale : Int) (v : ℚ) : Prop :=
  if factor % 2 = 0 then lowerEnd factor scale ≤ v ∧ v ≤ upperEnd factor scale
  else lowerEnd factor scale < v ∧ v < upperEnd factor scale

theorem Rounds.le {factor : Nat} {scale : Int} {v : ℚ} (h : Rounds factor scale v) :
    lowerEnd factor scale ≤ v ∧ v ≤ upperEnd factor scale := by
  unfold Rounds at h
  split at h
  · exact h
  · exact ⟨h.1.le, h.2.le⟩

/-- An end rounds to a number only if its factor is even. -/
theorem Rounds.even {factor : Nat} {scale : Int} {v : ℚ} (h : Rounds factor scale v)
    (hv : v = lowerEnd factor scale ∨ v = upperEnd factor scale) : factor % 2 = 0 := by
  by_contra hodd
  rw [Rounds, if_neg hodd] at h
  rcases hv with rfl | rfl
  · exact lt_irrefl _ h.1
  · exact lt_irrefl _ h.2

/-- A power is the quotient of two whole ones. -/
theorem zpow_mul_power {base : Nat} (hb : base ≠ 0) (exponent : Int) :
    (base : ℚ) ^ exponent * (power base (-exponent) : ℕ) = (power base exponent : ℕ) := by
  have hb' : (base : ℚ) ≠ 0 := Nat.cast_ne_zero.mpr hb
  have hpower : ∀ n : Int, ((power base n : ℕ) : ℚ) = (base : ℚ) ^ (n.toNat : Int) := fun n => by
    rw [power, Nat.pow_eq, Nat.cast_pow, zpow_natCast]
  rw [hpower, hpower, ← zpow_add₀ hb']
  congr 1
  omega

theorem power_pos {base : Nat} (hb : 0 < base) (exponent : Int) : 0 < power base exponent :=
  Nat.pow_pos hb

/-! ## The digits that are chosen -/

section Chosen

variable {factor : Nat} {scale : Int}

/-- What makes quarters of a binary number and a decimal number whole. -/
def clearing (scale exponent : Int) : ℚ :=
  4 * ((power 2 (-scale) : ℕ) * (power 10 (-exponent) : ℕ))

theorem clearing_pos (scale exponent : Int) : 0 < clearing scale exponent := by
  have htwo := power_pos (by decide : 0 < 2) (-scale)
  have hten := power_pos (by decide : 0 < 10) (-exponent)
  unfold clearing
  positivity

theorem decimal_mul_clearing (candidate : Nat) (scale exponent : Int) :
    (candidate * 10 ^ exponent : ℚ) * clearing scale exponent =
      (4 * candidate * power 10 exponent * power 2 (-scale) : ℕ) := by
  have hten := zpow_mul_power (by decide : 10 ≠ 0) exponent
  unfold clearing
  push_cast at hten ⊢
  rw [← hten]
  ring

theorem quarters_mul_clearing (quarters : Nat) {x : ℚ} (scale exponent : Int)
    (h : 4 * x = quarters) : x * 2 ^ scale * clearing scale exponent =
      (quarters * (power 2 scale * power 10 (-exponent)) : ℕ) := by
  have htwo := zpow_mul_power (by decide : 2 ≠ 0) scale
  unfold clearing
  push_cast at htwo ⊢
  rw [← htwo, ← h]
  ring

theorem rounds_of_readsBack (hf : factor ≠ 0) {candidate : Nat} {exponent : Int}
    (h : readsBack factor scale candidate exponent = true) :
    Rounds factor scale (candidate * 10 ^ exponent) := by
  have hpos := clearing_pos scale exponent
  have hvalue := decimal_mul_clearing candidate scale exponent
  have hlower : lowerEnd factor scale * clearing scale exponent = _ :=
    quarters_mul_clearing (4 * factor - if narrowBelow factor scale then 1 else 2) scale exponent
      (by
        have hone : 1 ≤ factor := Nat.one_le_iff_ne_zero.mpr hf
        split <;> rw [Nat.cast_sub (by omega)] <;> push_cast <;> ring)
  have hupper : upperEnd factor scale * clearing scale exponent = _ :=
    quarters_mul_clearing (4 * factor + 2) scale exponent (by push_cast; ring)
  unfold readsBack at h
  dsimp only at h
  unfold Rounds
  split at h <;> rename_i hparity <;> simp only [Bool.and_eq_true, decide_eq_true_eq] at h
  · rw [if_pos hparity]
    refine ⟨le_of_mul_le_mul_right ?_ hpos, le_of_mul_le_mul_right ?_ hpos⟩
    · rw [hlower, hvalue]
      exact_mod_cast h.1
    · rw [hupper, hvalue]
      exact_mod_cast h.2
  · rw [if_neg hparity]
    refine ⟨lt_of_mul_lt_mul_right ?_ hpos.le, lt_of_mul_lt_mul_right ?_ hpos.le⟩
    · rw [hlower, hvalue]
      exact_mod_cast h.1
    · rw [hupper, hvalue]
      exact_mod_cast h.2

theorem readsBack_of_onGrid {exponent : Int} {d : Digits}
    (h : onGrid factor scale exponent = some d) :
    readsBack factor scale d.digits d.exponent = true := by
  unfold onGrid at h
  dsimp only at h
  split at h <;> cases h
  · split <;> assumption
  · assumption
  · assumption

theorem dropZeros_value (fuel : Nat) (d : Digits) : (dropZeros fuel d).value = d.value := by
  induction fuel generalizing d with
  | zero => rfl
  | succ fuel ih =>
    rw [dropZeros]
    split
    · rename_i h
      have hten : d.digits % 10 = 0 := by simp_all
      have hdigits : (d.digits : ℚ) = (d.digits / 10 : ℕ) * 10 := by
        exact_mod_cast (Nat.div_mul_cancel (Nat.dvd_of_mod_eq_zero hten)).symm
      rw [ih, Digits.value, Digits.value, hdigits, zpow_add_one₀ (by norm_num)]
      ring
    · rfl

theorem exact_value (factor : Nat) (scale : Int) :
    (exact factor scale).value = factor * 2 ^ scale := by
  unfold exact
  split
  · have hone : power 2 (-scale) = 1 := by simp [power, show (-scale).toNat = 0 by omega]
    have htwo := zpow_mul_power (by decide : 2 ≠ 0) scale
    rw [hone] at htwo
    push_cast [Digits.value] at htwo ⊢
    rw [← htwo]
    simp
  · have hone : power 5 scale = 1 := by simp [power, show scale.toNat = 0 by omega]
    have hfive := zpow_mul_power (by decide : 5 ≠ 0) scale
    rw [hone] at hfive
    have hten : (10 : ℚ) ^ scale = 2 ^ scale * 5 ^ scale := by
      rw [← mul_zpow]
      norm_num
    push_cast [Digits.value] at hfive ⊢
    rw [hten]
    linear_combination (factor * 2 ^ scale : ℚ) * hfive

theorem rounds_self (factor : Nat) (scale : Int) : Rounds factor scale (factor * 2 ^ scale) := by
  have hpos : (0 : ℚ) < 2 ^ scale := by positivity
  have hlower : lowerEnd factor scale < factor * 2 ^ scale := by
    unfold lowerEnd
    split <;> nlinarith
  have hupper : (factor * 2 ^ scale : ℚ) < upperEnd factor scale := by
    unfold upperEnd
    nlinarith
  unfold Rounds
  split
  · exact ⟨hlower.le, hupper.le⟩
  · exact ⟨hlower, hupper⟩

theorem shortest_rounds (hf : factor ≠ 0) (scale : Int) :
    Rounds factor scale (shortest factor scale).value := by
  rw [shortest, if_neg hf]
  dsimp only
  rw [dropZeros_value]
  cases hfound : (List.range 17).findSome? fun n =>
      onGrid factor scale (leading factor scale - (n : Nat)) with
  | none =>
    rw [Option.getD_none, exact_value]
    exact rounds_self factor scale
  | some d =>
    obtain ⟨n, -, hd⟩ := List.exists_of_findSome?_eq_some hfound
    exact rounds_of_readsBack hf (readsBack_of_onGrid hd)

end Chosen

/-! ## No value rounds to two numbers -/

section Unique

variable {factor factor' : Nat} {scale scale' : Int}

/-- On one scale the interval of a number ends before that of the next one, or where it begins. -/
theorem upperEnd_le_lowerEnd (h : Canonical factor scale) (hlt : factor < factor') :
    upperEnd factor scale ≤ lowerEnd factor' scale ∧
      (upperEnd factor scale = lowerEnd factor' scale → factor' = factor + 1) := by
  have hpos : (0 : ℚ) < 2 ^ scale := by positivity
  have hnarrow : narrowBelow factor' scale = false := by
    by_contra hn
    have hn' : factor' = leadingOne ∧ -1074 < scale := by simpa [narrowBelow] using hn
    have := h.leads hn'.2
    omega
  have hsucc : (factor : ℚ) + 1 ≤ factor' := by exact_mod_cast hlt
  rw [upperEnd, lowerEnd, hnarrow]
  refine ⟨?_, fun he => ?_⟩
  · refine mul_le_mul_of_nonneg_right ?_ hpos.le
    norm_num
    linarith
  · have he' := mul_right_cancel₀ hpos.ne' he
    have hq : (factor' : ℚ) = factor + 1 := by
      norm_num at he'
      linarith
    exact_mod_cast hq

/-- Below the first number of a scale there is a quarter at least, and half behind the others. -/
theorem quarter_below (h : Canonical factor scale) (hscale : -1074 < scale) :
    (leadingOne - 1 / 4 : ℚ) * 2 ^ scale ≤ lowerEnd factor scale := by
  have hpos : (0 : ℚ) < 2 ^ scale := by positivity
  have hleads := h.leads hscale
  rw [lowerEnd]
  refine mul_le_mul_of_nonneg_right ?_ hpos.le
  by_cases hnarrow : narrowBelow factor scale = true
  · have hfactor : (leadingOne : ℚ) ≤ factor := by exact_mod_cast hleads
    rw [if_pos hnarrow]
    linarith
  · have hne : factor ≠ leadingOne := fun he => hnarrow (by simpa [narrowBelow, he] using hscale)
    have hsucc : (leadingOne : ℚ) + 1 ≤ factor := by
      exact_mod_cast (by omega : leadingOne + 1 ≤ factor)
    rw [if_neg hnarrow]
    linarith

/-- On a larger scale all intervals begin behind those of a smaller one, or where the last of them
ends. -/
theorem upperEnd_le_lowerEnd_of_scale (h : Canonical factor scale) (h' : Canonical factor' scale')
    (hlt : scale < scale') : upperEnd factor scale ≤ lowerEnd factor' scale' ∧
      (upperEnd factor scale = lowerEnd factor' scale' → factor % 2 = 1) := by
  have hpos : (0 : ℚ) < 2 ^ scale := by positivity
  have hbound := h.bound
  have hupper : (factor : ℚ) + 1 / 2 ≤ 2 * leadingOne - 1 / 2 := by
    have : (factor : ℚ) + 1 ≤ 2 * leadingOne := by exact_mod_cast hbound
    linarith
  have hdouble : (2 : ℚ) * 2 ^ scale ≤ 2 ^ scale' := by
    rw [mul_comm, ← zpow_add_one₀ (by norm_num)]
    exact zpow_le_zpow_right₀ (by norm_num) (by omega)
  have hend : (2 * leadingOne - 1 / 2 : ℚ) * 2 ^ scale ≤ lowerEnd factor' scale' := by
    have hquarter := quarter_below h' (by have := h.least; omega)
    have hleading : (0 : ℚ) ≤ leadingOne - 1 / 4 := by norm_num [leadingOne]
    calc (2 * leadingOne - 1 / 2 : ℚ) * 2 ^ scale
        = (leadingOne - 1 / 4) * (2 * 2 ^ scale) := by ring
      _ ≤ (leadingOne - 1 / 4) * 2 ^ scale' := mul_le_mul_of_nonneg_left hdouble hleading
      _ ≤ lowerEnd factor' scale' := hquarter
  refine ⟨(mul_le_mul_of_nonneg_right hupper hpos.le).trans hend, fun he => ?_⟩
  -- Where the intervals meet, the factor is the largest there is, and that is odd.
  have hmost : (2 * leadingOne - 1 / 2 : ℚ) ≤ factor + 1 / 2 :=
    le_of_mul_le_mul_right (hend.trans he.ge) hpos
  have hlast : 2 * leadingOne ≤ factor + 1 := by
    have hq : (2 * leadingOne : ℚ) ≤ factor + 1 := by linarith
    exact_mod_cast hq
  rw [leadingOne] at hbound hlast
  omega

/-- A value rounds to one number at most. -/
theorem rounds_unique (h : Canonical factor scale) (h' : Canonical factor' scale') {v : ℚ}
    (hv : Rounds factor scale v) (hv' : Rounds factor' scale' v) :
    factor = factor' ∧ scale = scale' := by
  -- Of two numbers the one has its interval before the other's, and a shared end is in one only.
  have apart : ∀ {f f' : Nat} {s s' : Int}, Rounds f s v → Rounds f' s' v →
      upperEnd f s ≤ lowerEnd f' s' →
      ¬ (upperEnd f s = lowerEnd f' s' → f % 2 = 1 ∨ f' % 2 = 1) := by
    intro f f' s s' hv hv' hle hodd
    have hupper : v = upperEnd f s := le_antisymm hv.le.2 (hle.trans hv'.le.1)
    have hlower : v = lowerEnd f' s' := le_antisymm (hupper.le.trans hle) hv'.le.1
    have heven := hv.even (.inr hupper)
    have heven' := hv'.even (.inl hlower)
    rcases hodd (hupper.symm.trans hlower) with ho | ho <;> omega
  rcases lt_trichotomy scale scale' with hs | rfl | hs
  · obtain ⟨hle, hodd⟩ := upperEnd_le_lowerEnd_of_scale h h' hs
    exact absurd (fun he => .inl (hodd he)) (apart hv hv' hle)
  · rcases lt_trichotomy factor factor' with hf | rfl | hf
    · obtain ⟨hle, hnext⟩ := upperEnd_le_lowerEnd h hf
      exact absurd (fun he => by have := hnext he; omega) (apart hv hv' hle)
    · exact ⟨rfl, rfl⟩
    · obtain ⟨hle, hnext⟩ := upperEnd_le_lowerEnd h' hf
      exact absurd (fun he => by have := hnext he; omega) (apart hv' hv hle)
  · obtain ⟨hle, hodd⟩ := upperEnd_le_lowerEnd_of_scale h' h hs
    exact absurd (fun he => .inl (hodd he)) (apart hv' hv hle)

/-- Two numbers have the same shortest digits only if they are equal. -/
theorem shortest_value_inj (h : Canonical factor scale) (h' : Canonical factor' scale')
    (hf : factor ≠ 0) (hf' : factor' ≠ 0)
    (hv : (shortest factor scale).value = (shortest factor' scale').value) :
    factor = factor' ∧ scale = scale' :=
  rounds_unique h h' (shortest_rounds hf scale) (hv ▸ shortest_rounds hf' scale')

end Unique

end GameScript.Decimal
