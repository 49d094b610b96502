import ProgramTree.Proofs.Decimal.Rounding
import ProgramTree.Proofs.Grammar.Scanning

/-! # Reading numbers that were written

The text of a 64-bit integer and the text of a finite float are read back as
the same value, whatever follows them, as long as it cannot be taken for a part
of the number. -/

namespace ProgramTree.Reader

set_option autoImplicit false

/-- The text does not go on with what would belong to a number. -/
structure EndsNumber (rest : List Char) : Prop where
  word : StartsNot Name.isWordChar rest
  fraction : ∀ tail, rest = '.' :: tail → StartsNot Char.isDigit tail

theorem isWordChar_of_isDigit {c : Char} (h : c.isDigit = true) : Name.isWordChar c = true := by
  simp [Name.isWordChar, Char.isAlphanum, h]

theorem startsNot_digit {rest : List Char} (h : StartsNot Name.isWordChar rest) :
    StartsNot Char.isDigit rest :=
  h.mono fun _ => isWordChar_of_isDigit

/-- The sign of a number that may be negative. -/
def minus (negative : Bool) : List Char :=
  if negative then ['-'] else []

section Tails

variable {rest : List Char}

theorem exponentPart?_eq_none (h : StartsNot Name.isWordChar rest) : exponentPart? rest = none := by
  cases rest with
  | nil => rfl
  | cons c rest =>
    have hc : ¬ (c = 'e' ∨ c = 'E') := by
      rintro (rfl | rfl)
      · exact absurd (startsNot_cons.mp h) (by decide)
      · exact absurd (startsNot_cons.mp h) (by decide)
    rw [exponentPart?, if_neg hc]

theorem floatTail?_eq_none (h : EndsNumber rest) : floatTail? rest = none := by
  unfold floatTail?
  split
  · rename_i tail
    rw [takeWhile_of_startsNot (h.fraction tail rfl)]
  · rw [exponentPart?_eq_none h.word]
    rfl

theorem takeSign_of_digit {d : Char} (hd : d.isDigit = true) :
    Binary64.takeSign (d :: rest) = (false, d :: rest) := by
  unfold Binary64.takeSign
  split
  · rename_i heq
    cases heq
    exact absurd hd (by decide)
  · rename_i heq
    cases heq
    exact absurd hd (by decide)
  · rfl

variable {digits : List Char} (hdigits : ∀ c ∈ digits, c.isDigit = true) (hne : digits ≠ [])
include hdigits hne

theorem takeSign_run {sign : List Char} {negative : Bool}
    (hsign : sign = ['-'] ∧ negative = true ∨ (sign = ['+'] ∨ sign = []) ∧ negative = false) :
    Binary64.takeSign (sign ++ (digits ++ rest)) = (negative, digits ++ rest) := by
  obtain ⟨d, ds, rfl⟩ := List.exists_cons_of_ne_nil hne
  rcases hsign with ⟨rfl, rfl⟩ | ⟨rfl | rfl, rfl⟩
  · rfl
  · rfl
  · exact takeSign_of_digit (hdigits d List.mem_cons_self)

theorem exponentPart?_run {marker : Char} {sign : List Char} {negative : Bool}
    (hmarker : marker = 'e' ∨ marker = 'E')
    (hsign : sign = ['-'] ∧ negative = true ∨ (sign = ['+'] ∨ sign = []) ∧ negative = false)
    (hrest : StartsNot Char.isDigit rest) :
    exponentPart? (marker :: (sign ++ (digits ++ rest))) =
      some (signedValue negative digits, rest) := by
  rw [exponentPart?, if_pos hmarker, takeSign_run hdigits hne hsign]
  simp only [takeWhile_run hdigits hrest, dropWhile_run hdigits hrest]

theorem floatTail?_fraction (hrest : StartsNot Char.isDigit rest) :
    floatTail? ('.' :: (digits ++ rest)) =
      match exponentPart? rest with
      | some (exponent, final) => some (digits, exponent, final)
      | none => some (digits, 0, rest) := by
  rw [floatTail?, takeWhile_run hdigits hrest, dropWhile_run hdigits hrest]
  obtain ⟨d, ds, rfl⟩ := List.exists_cons_of_ne_nil hne
  rfl

/-- A number is told by what follows its first digits. -/
theorem number?_run (negative : Bool) (hrest : StartsNot Char.isDigit rest) :
    number? (minus negative ++ (digits ++ rest)) =
      match floatTail? rest with
      | some (fraction, exponent, final) =>
        some (.float (Numeral.value ⟨negative, digits, fraction, exponent⟩), final)
      | none => (int64? (signedValue negative digits)).map fun value => (.int value, rest) := by
  obtain ⟨d, ds, rfl⟩ := List.exists_cons_of_ne_nil hne
  unfold number?
  split
  rename_i negative' body hsign
  have hparts : negative' = negative ∧ body = d :: ds ++ rest := by
    cases negative with
    | true =>
      cases hsign
      exact ⟨rfl, rfl⟩
    | false =>
      simp only [minus, Bool.false_eq_true, if_false, List.nil_append] at hsign
      split at hsign
      · rename_i heq
        cases heq
        exact absurd (hdigits '-' List.mem_cons_self) (by decide)
      · cases hsign
        exact ⟨rfl, rfl⟩
  obtain ⟨rfl, rfl⟩ := hparts
  cases htail : floatTail? rest <;>
    simp only [takeWhile_run hdigits hrest, dropWhile_run hdigits hrest, htail]

end Tails

theorem toDigits_all (n : Nat) : ∀ c ∈ Nat.toDigits 10 n, c.isDigit = true := fun _ hc =>
  Nat.isDigit_of_mem_toDigits (by decide) (by decide) hc

theorem signedValue_toDigits (value : Int) :
    signedValue (decide (value < 0)) (Nat.toDigits 10 value.natAbs) = value := by
  simp only [signedValue, Nat.ofDigitChars_ten_toDigits, decide_eq_true_eq]
  split <;> omega

theorem integerText_toList (value : Int) :
    (integerText value).toList = minus (decide (value < 0)) ++ Nat.toDigits 10 value.natAbs := by
  by_cases h : value < 0 <;>
    simp [integerText, minus, h]

theorem int64?_eq_some {n : Int} {value : Int64} : int64? n = some value ↔ value.toInt = n := by
  unfold int64?
  constructor
  · intro h
    split at h
    · rename_i hrange
      cases h
      exact Int64.toInt_ofInt_of_le hrange.1 hrange.2
    · cases h
  · rintro rfl
    rw [if_pos ⟨value.le_toInt, value.toInt_lt⟩, Int64.ofInt_toInt]

/-- An integer is read back if it fits in 64 bits. -/
theorem number?_integer (value : Int) {rest : List Char} (h : EndsNumber rest) :
    number? ((integerText value).toList ++ rest) =
      (int64? value).map fun value => (.int value, rest) := by
  rw [integerText_toList, List.append_assoc,
    number?_run (toDigits_all _) Nat.toDigits_ne_nil _ (startsNot_digit h.word), floatTail?_eq_none h]
  simp only [signedValue_toDigits]

theorem number?_integerText (value : Int64) {rest : List Char} (h : EndsNumber rest) :
    number? ((integerText value.toInt).toList ++ rest) = some (.int value, rest) := by
  rw [number?_integer _ h, int64?_eq_some.mpr rfl, Option.map_some]

section Layout

variable {rest : List Char}

theorem number?_float (negative : Bool) (whole fraction : List Char) (hwhole : whole ≠ [])
    (hwholeDigits : ∀ c ∈ whole, c.isDigit = true) (hfraction : fraction ≠ [])
    (hfractionDigits : ∀ c ∈ fraction, c.isDigit = true) (h : StartsNot Name.isWordChar rest) :
    number? (minus negative ++ (whole ++ '.' :: (fraction ++ rest))) =
      some (.float (Numeral.value ⟨negative, whole, fraction, 0⟩), rest) := by
  rw [number?_run hwholeDigits hwhole negative (startsNot_cons.mpr rfl),
    floatTail?_fraction hfractionDigits hfraction (startsNot_digit h), exponentPart?_eq_none h]

theorem ofDigitChars_zeros (k : Nat) (digits : List Char) :
    Nat.ofDigitChars 10 (List.replicate k '0' ++ digits) 0 = Nat.ofDigitChars 10 digits 0 := by
  rw [Nat.ofDigitChars_append, Nat.ofDigitChars_replicate_zero, Nat.mul_zero]

theorem replicate_zero_digits (k : Nat) : ∀ c ∈ List.replicate k '0', c.isDigit = true := by
  intro c hc
  rw [List.eq_of_mem_replicate hc]
  rfl

section Positional

variable {digits : List Char} (hdigits : ∀ c ∈ digits, c.isDigit = true) (negative : Bool)
  (h : StartsNot Name.isWordChar rest)
include hdigits h

/-- All digits stand after the point. -/
theorem number?_after_point (hne : digits ≠ []) (k : Nat) :
    number? (minus negative ++ ('0' :: '.' :: (List.replicate k '0' ++ digits ++ rest))) =
      some (.float (Binary64.ofDecimal negative (Nat.ofDigitChars 10 digits 0)
        (-((k + digits.length : Nat) : Int))), rest) := by
  have hread := number?_float negative ['0'] (List.replicate k '0' ++ digits) (by simp) (by simp)
    (by simp [hne])
    (fun c hc => (List.mem_append.mp hc).elim (replicate_zero_digits k c) (hdigits c)) h
  have hexponent : (0 : Int) - (List.replicate k '0' ++ digits).length =
      -((k + digits.length : Nat) : Int) := by
    rw [List.length_append, List.length_replicate, Int.zero_sub]
  have hvalue : Nat.ofDigitChars 10 (['0'] ++ (List.replicate k '0' ++ digits)) 0 =
      Nat.ofDigitChars 10 digits 0 := by
    rw [← ofDigitChars_zeros k digits]
    rfl
  simp only [Numeral.value, hexponent, hvalue] at hread
  simpa using hread

/-- All digits stand before the point. -/
theorem number?_before_point (hne : digits ≠ []) (k : Nat) :
    number? (minus negative ++ (digits ++ List.replicate k '0' ++ '.' :: '0' :: rest)) =
      some (.float (Binary64.ofDecimal negative (Nat.ofDigitChars 10 digits 0) k), rest) := by
  have hread := number?_float negative (digits ++ List.replicate k '0') ['0'] (by simp [hne])
    (fun c hc => (List.mem_append.mp hc).elim (hdigits c) (replicate_zero_digits k c))
    (by simp) (by simp) h
  have hexponent : (0 : Int) - (['0'] : List Char).length = (k : Int) - ((k + 1 : Nat) : Int) := by
    simp only [List.length_singleton]
    omega
  have hvalue : Nat.ofDigitChars 10 (digits ++ List.replicate k '0' ++ ['0']) 0 =
      Nat.ofDigitChars 10 digits 0 * 10 ^ (k + 1) := by
    rw [List.append_assoc, ← List.replicate_succ', Nat.ofDigitChars_append,
      Nat.ofDigitChars_replicate_zero, Nat.mul_comm]
  simp only [Numeral.value, hexponent, hvalue, Binary64.ofDecimal_mul_pow] at hread
  simpa using hread

/-- The point stands between the digits. -/
theorem number?_between {w : Nat} (hw : 0 < w) (hlt : w < digits.length) :
    number? (minus negative ++ (digits.take w ++ '.' :: (digits.drop w ++ rest))) =
      some (.float (Binary64.ofDecimal negative (Nat.ofDigitChars 10 digits 0)
        ((w : Int) - digits.length)), rest) := by
  have hdrop : digits.drop w ≠ [] := by simpa using hlt
  have htake : digits.take w ≠ [] := by
    rw [ne_eq, List.take_eq_nil_iff]
    rintro (hnone | rfl)
    · omega
    · exact Nat.not_lt_zero _ hlt
  have hread := number?_float negative _ _ htake (fun c hc => hdigits c (List.mem_of_mem_take hc))
    hdrop (fun c hc => hdigits c (List.mem_of_mem_drop hc)) h
  have hexponent : (0 : Int) - (digits.drop w).length = (w : Int) - digits.length := by
    rw [List.length_drop]
    omega
  simpa only [Numeral.value, hexponent, List.take_append_drop] using hread

end Positional

/-- Digits with a point are read as the decimal that they write. -/
theorem number?_positional (negative : Bool) (n : Nat) (e : Int)
    (h : StartsNot Name.isWordChar rest) :
    number? (minus negative ++ (NumberLayout.positional (Nat.toDigits 10 n)
      ((Nat.toDigits 10 n).length - 1 + e) ++ rest)) =
      some (.float (Binary64.ofDecimal negative n e), rest) := by
  have hdigits := toDigits_all n
  have hvalue : Nat.ofDigitChars 10 (Nat.toDigits 10 n) 0 = n := Nat.ofDigitChars_ten_toDigits
  have hne : Nat.toDigits 10 n ≠ [] := Nat.toDigits_ne_nil
  generalize Nat.toDigits 10 n = digits at hdigits hvalue hne
  have hlength : 0 < digits.length := List.length_pos_iff.mpr hne
  unfold NumberLayout.positional
  by_cases hlead : (digits.length : Int) - 1 + e < 0
  · generalize hk : (-((digits.length : Int) - 1 + e) - 1).toNat = k
    have hexponent : -((k + digits.length : Nat) : Int) = e := by omega
    have hread := number?_after_point hdigits negative h hne k
    rw [hvalue, hexponent] at hread
    simpa [hlead, hk] using hread
  · rw [if_neg hlead]
    generalize hw : ((digits.length : Int) - 1 + e).toNat + 1 = w
    simp only
    by_cases hshort : digits.length ≤ w
    · have hexponent : ((w - digits.length : Nat) : Int) = e := by omega
      have hread := number?_before_point hdigits negative h hne (w - digits.length)
      rw [hvalue, hexponent] at hread
      simpa [List.take_of_length_le hshort, List.drop_eq_nil_of_le hshort] using hread
    · have hexponent : (w : Int) - digits.length = e := by omega
      have hread := number?_between hdigits negative h (by omega) (Nat.lt_of_not_le hshort)
      rw [hvalue, hexponent] at hread
      have hzeros : w - digits.length = 0 := by omega
      simpa [hzeros, hshort] using hread

theorem number?_scientific (layout : NumberLayout) (negative : Bool) (n : Nat) (e : Int)
    (h : StartsNot Name.isWordChar rest) :
    number? (minus negative ++ (layout.scientific (Nat.toDigits 10 n)
      ((Nat.toDigits 10 n).length - 1 + e) ++ rest)) =
      some (.float (Binary64.ofDecimal negative n e), rest) := by
  have hdigits := toDigits_all n
  have hvalue : Nat.ofDigitChars 10 (Nat.toDigits 10 n) 0 = n := Nat.ofDigitChars_ten_toDigits
  have hne : Nat.toDigits 10 n ≠ [] := Nat.toDigits_ne_nil
  generalize Nat.toDigits 10 n = digits at hdigits hvalue hne
  generalize hlead : (digits.length : Int) - 1 + e = lead
  have hexponent : ∃ sign : List Char, (if lead < 0 then ['-'] else
      if layout.plusSign then ['+'] else []) = sign ∧
      exponentPart? ('e' :: (sign ++ (Nat.toDigits 10 lead.natAbs ++ rest))) = some (lead, rest) := by
    have hsign : ∀ sign, (if lead < 0 then ['-'] else if layout.plusSign then ['+'] else []) = sign →
        sign = ['-'] ∧ decide (lead < 0) = true ∨
          (sign = ['+'] ∨ sign = []) ∧ decide (lead < 0) = false := by
      rintro sign rfl
      by_cases hneg : lead < 0
      · simp [hneg]
      · cases layout.plusSign <;> simp [hneg]
    refine ⟨_, rfl, ?_⟩
    rw [exponentPart?_run (toDigits_all _) Nat.toDigits_ne_nil (Or.inl rfl) (hsign _ rfl)
      (startsNot_digit h), signedValue_toDigits]
  obtain ⟨sign, hsign, hexponent⟩ := hexponent
  unfold NumberLayout.scientific
  simp only [hsign]
  match digits, hne with
  | [first], _ =>
    have hfloat : floatTail? ('e' :: (sign ++ (Nat.toDigits 10 lead.natAbs ++ rest))) =
        some ([], lead, rest) := by
      simp [floatTail?, hexponent]
    have hend : StartsNot Char.isDigit ('e' :: (sign ++ (Nat.toDigits 10 lead.natAbs ++ rest))) :=
      startsNot_cons.mpr rfl
    have hread := number?_run hdigits (by simp) negative hend
    have hleadValue : lead - (([] : List Char).length : Int) = e := by
      simp only [List.length_singleton, List.length_nil] at hlead ⊢
      omega
    simp only [hfloat, Numeral.value, List.append_nil, hvalue, hleadValue] at hread
    simpa using hread
  | first :: second :: others, _ =>
    have hend : StartsNot Char.isDigit ('.' :: (second :: others ++
        'e' :: (sign ++ (Nat.toDigits 10 lead.natAbs ++ rest)))) :=
      startsNot_cons.mpr rfl
    have hfirst : ∀ c ∈ [first], c.isDigit = true := fun c hc =>
      hdigits c (List.mem_of_mem_head? (by simp_all))
    have hread := number?_run hfirst (by simp) negative hend
    rw [floatTail?_fraction (fun c hc => hdigits c (List.mem_cons_of_mem first hc)) (by simp)
      (startsNot_cons.mpr rfl), hexponent] at hread
    have hleadValue : lead - ((second :: others).length : Int) = e := by
      simp only [List.length_cons] at hlead ⊢
      omega
    simp only [Numeral.value, List.singleton_append, hvalue, hleadValue] at hread
    simpa using hread

theorem number?_text (layout : NumberLayout) {value : Binary64} (hfinite : value.isFinite = true)
    (h : EndsNumber rest) : number? (layout.text value ++ rest) = some (.float value, rest) := by
  match value, hfinite with
  | .finite negative significand scale canonical, _ =>
    by_cases hzero : significand = 0
    · have hscale : scale = 0 := by
        rcases canonical.normal_or_least with hnormal | hleast
        · omega
        · exact hleast
      subst hzero hscale
      have hread := number?_float negative ['0'] ['0'] (by simp) (by simp) (by simp) (by simp)
        h.word
      simpa [NumberLayout.text, minus, Numeral.value, Nat.ofDigitChars_cons, Binary64.ofDecimal,
        Binary64.zero] using hread
    · have hvalue := Decimal.ofDecimal_trimZeros negative
        (Decimal.shortest layout.tie significand scale canonical)
      rw [Decimal.ofDecimal_shortest canonical layout.tie negative (Nat.pos_of_ne_zero hzero)]
        at hvalue
      have htext : layout.text (.finite negative significand scale canonical) = minus negative ++
          layout.magnitude (Decimal.shortest layout.tie significand scale canonical) := by
        rw [NumberLayout.text, if_neg hzero]
        rfl
      rw [htext, ← hvalue, List.append_assoc, NumberLayout.magnitude]
      split
      · exact number?_positional negative _ _ h.word
      · exact number?_scientific layout negative _ _ h.word

end Layout

end ProgramTree.Reader
