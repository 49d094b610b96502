import Mathlib.Tactic.Ring
import ProgramTree.Decimal.Shortest

/-! # Rounding depends on the value alone

A decimal can be written with zeros at its end and a lower exponent. The
rounded value depends on the ratio alone and so does not change, and the sign
is passed through. Every finite value is what its exact expansion rounds to. -/

namespace ProgramTree

set_option autoImplicit false

namespace Binary64

section Ratio

variable {a b c : Nat}

theorem roundHalfEven_mul (hc : 0 < c) : roundHalfEven (a * c) (b * c) = roundHalfEven a b := by
  unfold roundHalfEven
  rw [Nat.mul_div_mul_right a b hc, Nat.mul_mod_mul_right]
  have hless : 2 * (a % b * c) < b * c ↔ 2 * (a % b) < b := by
    rw [← Nat.mul_assoc]
    exact Nat.mul_lt_mul_right hc
  have hmore : b * c < 2 * (a % b * c) ↔ b < 2 * (a % b) := by
    rw [← Nat.mul_assoc]
    exact Nat.mul_lt_mul_right hc
  simp only [hless, hmore]

theorem ofRatio_mul (negative : Bool) (hc : 0 < c) :
    ofRatio negative (a * c) (b * c) = ofRatio negative a b := by
  unfold ofRatio
  simp only [Nat.mul_right_comm a c, Nat.mul_right_comm b c, Nat.mul_div_mul_right _ _ hc,
    roundHalfEven_mul hc]

theorem ofRatio_congr (negative : Bool) {a' b' : Nat} (hb : 0 < b) (hb' : 0 < b')
    (h : a * b' = a' * b) : ofRatio negative a b = ofRatio negative a' b' := by
  calc ofRatio negative a b = ofRatio negative (a * b') (b * b') := (ofRatio_mul negative hb').symm
    _ = ofRatio negative (a' * b) (b' * b) := by rw [h, Nat.mul_comm b b']
    _ = ofRatio negative a' b' := ofRatio_mul negative hb

theorem ofRatio_of_nonneg (negative : Bool) {significand scale : Nat}
    {canonical : Canonical significand scale}
    (h : ofRatio false a b = finite false significand scale canonical) :
    ofRatio negative a b = finite negative significand scale canonical := by
  unfold ofRatio at h ⊢
  simp only at h ⊢
  generalize (if roundHalfEven _ _ = 2 ^ 53 then _ else _ : Nat × Nat) = carried at h ⊢
  by_cases hcarried : Canonical carried.1 carried.2
  · rw [dif_pos hcarried] at h ⊢
    simp only [finite.injEq, true_and] at h ⊢
    exact h
  · rw [dif_neg hcarried] at h
    cases h

end Ratio

theorem length_toDigits_mul_pow {n : Nat} (hn : 0 < n) (k : Nat) :
    (Nat.toDigits 10 (n * 10 ^ k)).length = (Nat.toDigits 10 n).length + k := by
  induction k with
  | zero => simp
  | succ k ih =>
    have hpos : 0 < n * 10 ^ k := Nat.mul_pos hn (Nat.pow_pos (by decide))
    have hstep : n * 10 ^ (k + 1) = 10 * (n * 10 ^ k) + 0 := by
      rw [Nat.pow_succ]
      ring
    rw [hstep, ← Nat.toDigits_append_toDigits (by decide) hpos (by decide), List.length_append, ih]
    rfl

/-- Zeros at the end of the digits are made up for by the exponent. -/
theorem ofDecimal_mul_pow (negative : Bool) (n k : Nat) (e : Int) :
    ofDecimal negative (n * 10 ^ k) (e - k) = ofDecimal negative n e := by
  have hpow : 0 < 10 ^ k := Nat.pow_pos (by decide)
  by_cases hn : n = 0
  · simp [ofDecimal, hn]
  · have hmul : n * 10 ^ k ≠ 0 := Nat.mul_ne_zero hn hpow.ne'
    have hlength : ((Nat.toDigits 10 (n * 10 ^ k)).length : Int) + (e - k) =
        (Nat.toDigits 10 n).length + e := by
      rw [length_toDigits_mul_pow (Nat.pos_of_ne_zero hn) k]
      omega
    have hratio : ofRatio negative (n * 10 ^ k * 10 ^ (e - k).toNat) (10 ^ (-(e - k)).toNat) =
        ofRatio negative (n * 10 ^ e.toNat) (10 ^ (-e).toNat) := by
      apply ofRatio_congr negative (Nat.pow_pos (by decide)) (Nat.pow_pos (by decide))
      have hexponents : k + (e - k).toNat + (-e).toNat = e.toNat + (-(e - k)).toNat := by omega
      calc n * 10 ^ k * 10 ^ (e - k).toNat * 10 ^ (-e).toNat
          = n * 10 ^ (k + (e - k).toNat + (-e).toNat) := by rw [pow_add, pow_add]; ring
        _ = n * 10 ^ (e.toNat + (-(e - k)).toNat) := by rw [hexponents]
        _ = n * 10 ^ e.toNat * 10 ^ (-(e - k)).toNat := by rw [pow_add]; ring
    simp only [ofDecimal, if_neg hn, if_neg hmul, hlength, hratio]

theorem ofDecimal_of_nonneg (negative : Bool) {n : Nat} {e : Int} {significand scale : Nat}
    {canonical : Canonical significand scale}
    (h : ofDecimal false n e = finite false significand scale canonical) :
    ofDecimal negative n e = finite negative significand scale canonical := by
  unfold ofDecimal at h ⊢
  simp only at h ⊢
  split at h
  · rename_i hzero
    rw [if_pos hzero]
    unfold zero at h ⊢
    simp only [finite.injEq, true_and] at h ⊢
    exact h
  · rename_i hzero
    rw [if_neg hzero]
    split at h
    · cases h
    · rename_i hlarge
      rw [if_neg hlarge]
      split at h
      · rename_i hsmall
        rw [if_pos hsmall]
        unfold zero at h ⊢
        simp only [finite.injEq, true_and] at h ⊢
        exact h
      · rename_i hsmall
        rw [if_neg hsmall]
        exact ofRatio_of_nonneg negative h

section Exact

variable {significand scale : Nat} (canonical : Canonical significand scale)
include canonical

/-- A canonical value is found again from its units. -/
theorem log2_units (hpos : 0 < significand) : (units significand scale).log2 - 52 = scale := by
  have hlt := canonical.significand_lt
  unfold units
  rcases canonical.normal_or_least with hnormal | hleast
  · have hlog : (significand * 2 ^ scale).log2 = 52 + scale := by
      rw [Nat.log2_eq_iff (Nat.mul_pos hpos (Nat.pow_pos (by decide))).ne']
      constructor
      · rw [Nat.pow_add]
        exact Nat.mul_le_mul_right _ hnormal
      · rw [show 52 + scale + 1 = 53 + scale by omega, Nat.pow_add]
        exact Nat.mul_lt_mul_of_pos_right hlt (Nat.pow_pos (by decide))
    omega
  · subst hleast
    have hlog : (significand * 2 ^ 0).log2 < 53 := by
      rw [Nat.pow_zero, Nat.mul_one]
      exact (Nat.log2_lt hpos.ne').mpr hlt
    omega

theorem ofRatio_units (hpos : 0 < significand) {k den : Nat} (hden : 0 < den)
    (h : k * 2 ^ 1074 = units significand scale * den) :
    ofRatio false k den = finite false significand scale canonical := by
  have hlog := log2_units canonical hpos
  have hround : roundHalfEven (units significand scale * den) (den * 2 ^ scale) = significand := by
    unfold units roundHalfEven
    have hsplit : significand * 2 ^ scale * den = significand * (den * 2 ^ scale) := by ring
    have hpos' : 0 < den * 2 ^ scale := Nat.mul_pos hden (Nat.pow_pos (by decide))
    rw [hsplit, Nat.mul_div_cancel _ hpos', Nat.mul_mod_left, if_pos (by omega)]
  have hne : significand ≠ 2 ^ 53 := canonical.significand_lt.ne
  unfold ofRatio
  simp only [h, Nat.mul_div_cancel _ hden, hlog, hround, if_neg hne, dif_pos canonical]

/-- The exact expansion of a value rounds to the value. -/
theorem ofDecimal_exact (hpos : 0 < significand) :
    ofDecimal false (units significand scale * 5 ^ 1074) (-1074) =
      finite false significand scale canonical := by
  have hunits : 0 < units significand scale := Nat.mul_pos hpos (Nat.pow_pos (by decide))
  have hne : units significand scale * 5 ^ 1074 ≠ 0 :=
    (Nat.mul_pos hunits (Nat.pow_pos (by decide))).ne'
  -- the number of digits lies between those of the least and of the largest value
  have hupper : (Nat.toDigits 10 (units significand scale * 5 ^ 1074)).length ≤ 1384 := by
    rw [Nat.length_toDigits_le_iff (by decide) (by decide)]
    have hlt : units significand scale < 2 ^ 2098 := by
      calc units significand scale < 2 ^ 53 * 2 ^ scale :=
            Nat.mul_lt_mul_of_pos_right canonical.significand_lt (Nat.pow_pos (by decide))
        _ ≤ 2 ^ 53 * 2 ^ 2045 :=
            Nat.mul_le_mul_left _ (Nat.pow_le_pow_right (by decide) canonical.scale_le)
        _ = 2 ^ 2098 := by rw [← Nat.pow_add]
    calc units significand scale * 5 ^ 1074 < 2 ^ 2098 * 5 ^ 1074 :=
          Nat.mul_lt_mul_of_pos_right hlt (Nat.pow_pos (by decide))
      _ ≤ 10 ^ 1384 := by decide +kernel
  have hlower : 700 < (Nat.toDigits 10 (units significand scale * 5 ^ 1074)).length := by
    rw [← Nat.not_le, Nat.length_toDigits_le_iff (by decide) (by decide), Nat.not_lt]
    calc 10 ^ 700 ≤ 5 ^ 1074 := by decide +kernel
      _ ≤ units significand scale * 5 ^ 1074 := Nat.le_mul_of_pos_left _ hunits
  have hratio : ofRatio false (units significand scale * 5 ^ 1074) (10 ^ 1074) =
      finite false significand scale canonical := by
    apply ofRatio_units canonical hpos (Nat.pow_pos (by decide))
    rw [Nat.mul_assoc, ← Nat.mul_pow]
  unfold ofDecimal
  simp only [if_neg hne]
  rw [if_neg (by omega), if_neg (by omega)]
  simpa using hratio

end Exact

end Binary64

namespace Decimal

theorem ofDecimal_trimZeros (negative : Bool) (d : Decimal) :
    Binary64.ofDecimal negative d.trimZeros.digits d.trimZeros.exponent =
      Binary64.ofDecimal negative d.digits d.exponent := by
  fun_induction trimZeros d with
  | case1 d h ih =>
    have hdigits : d.digits / 10 * 10 ^ 1 = d.digits := by omega
    have hexponent : d.exponent + 1 - ((1 : Nat) : Int) = d.exponent := by omega
    have hstep := Binary64.ofDecimal_mul_pow negative (d.digits / 10) 1 (d.exponent + 1)
    rw [hdigits, hexponent] at hstep
    rw [ih, hstep]
  | case2 d h => rfl

variable {significand scale : Nat} (canonical : Canonical significand scale)

theorem shortest_cases (tie : Tie) :
    (shortest tie significand scale canonical).readsBack
        (.finite false significand scale canonical) = true ∨
      shortest tie significand scale canonical =
        expansion (Binary64.units significand scale) := by
  unfold shortest
  dsimp only
  cases hfound : (candidates tie (Binary64.units significand scale)).find?
    (readsBack · (.finite false significand scale canonical)) with
  | some d =>
    have hreads := List.find?_some hfound
    exact Or.inl hreads
  | none => exact Or.inr rfl

theorem ofDecimal_shortest (tie : Tie) (negative : Bool) (hpos : 0 < significand) :
    Binary64.ofDecimal negative (shortest tie significand scale canonical).digits
      (shortest tie significand scale canonical).exponent =
      .finite negative significand scale canonical := by
  apply Binary64.ofDecimal_of_nonneg negative
  rcases shortest_cases canonical tie with hreads | hexact
  · exact beq_iff_eq.mp hreads
  · rw [hexact]
    exact Binary64.ofDecimal_exact canonical hpos

end Decimal
end ProgramTree
