import ProgramTree.Proofs.Grammar.Number
import ProgramTree.Proofs.Json.Written

/-! # JSON texts are read back

A reader of JSON that knows nothing of how values are written here: any blanks
may stand between the parts of a text, letters may be escaped in any way, and
what is no JSON is refused. A written value is read back from each of its
written forms, as long as the floats in it are finite, since all others are
written as null. So a text is the written form of one value at most. -/

namespace ProgramTree.Json

set_option autoImplicit false

/-! ## The reader -/

def isBlank (c : Char) : Bool :=
  c = ' ' || c = '\t' || c = '\n' || c = '\r'

def skipBlanks (text : List Char) : List Char :=
  text.dropWhile isBlank

/-- The value of a hexadecimal digit. -/
def hexValue? (c : Char) : Option Nat :=
  if '0' ≤ c ∧ c ≤ '9' then some (c.toNat - '0'.toNat)
  else if 'a' ≤ c ∧ c ≤ 'f' then some (c.toNat - 'a'.toNat + 10)
  else if 'A' ≤ c ∧ c ≤ 'F' then some (c.toNat - 'A'.toNat + 10)
  else none

/-- The number that four hexadecimal digits spell. -/
def codeUnit? : List Char → Option (Nat × List Char)
  | a :: b :: c :: d :: rest => do
    let digits ← [a, b, c, d].mapM hexValue?
    return (digits.foldl (fun n digit => 16 * n + digit) 0, rest)
  | _ => none

/-- The character with a code of four digits. One that needs more of them is spelled by two codes
that are none of a character. -/
def coded? (text : List Char) : Option (Char × List Char) := do
  let (code, rest) ← codeUnit? text
  if code.isValidChar then return (.ofNat code, rest)
  match rest with
  | '\\' :: 'u' :: rest =>
    let (low, rest) ← codeUnit? rest
    if code < 0xdc00 ∧ 0xdc00 ≤ low ∧ low < 0xe000 then
      return (.ofNat (0x10000 + 0x400 * (code - 0xd800) + (low - 0xdc00)), rest)
    else none
  | _ => none

/-- A character of a string, or what stands for one after a backslash. -/
def character? : List Char → Option (Char × List Char)
  | '\\' :: c :: rest =>
    match c with
    | '"' | '\\' | '/' => some (c, rest)
    | 'b' => some ('\x08', rest)
    | 'f' => some ('\x0c', rest)
    | 'n' => some ('\n', rest)
    | 'r' => some ('\r', rest)
    | 't' => some ('\t', rest)
    | 'u' => coded? rest
    | _ => none
  | c :: rest => if c = '"' ∨ c = '\\' ∨ c.toNat < 0x20 then none else some (c, rest)
  | [] => none

/-- At most the given number of characters, up to a closing quote. -/
def characters? : Nat → List Char → Option (List Char × List Char)
  | _, '"' :: rest => some ([], rest)
  | 0, _ => none
  | most + 1, text => do
    let (c, rest) ← character? text
    let (cs, rest) ← characters? most rest
    return (c :: cs, rest)

/-- A string after its opening quote. -/
def string? (text : List Char) : Option (String × List Char) :=
  (characters? text.length text).map fun (cs, rest) => (.ofList cs, rest)

/-- The digits of an integer: no zero stands before other digits. -/
def isWhole (digits : List Char) : Bool :=
  digits = ['0'] || digits.head?.any (· != '0')

/-- Whether there is a minus, and what follows it. -/
def takeMinus : List Char → Bool × List Char
  | '-' :: rest => (true, rest)
  | rest => (false, rest)

/-- A number: a float if it has a fraction or an exponent part, otherwise an integer. -/
def number? (text : List Char) : Option (Json × List Char) :=
  let (negative, body) := takeMinus text
  let whole := body.takeWhile Char.isDigit
  let rest := body.dropWhile Char.isDigit
  if !isWhole whole then none
  else
    match Reader.floatTail? rest with
    | some (fraction, exponent, final) =>
      some (.float (Numeral.value ⟨negative, whole, fraction, exponent⟩), final)
    | none => some (.int (signedValue negative whole), rest)

section Items

variable {α : Type} (item? : List Char → Option (α × List Char)) (closing : Char)

/-- At most the given number of further items, each after a comma, up to the closing bracket. -/
def others? : Nat → List Char → Option (List α × List Char)
  | 0, _ => none
  | most + 1, text =>
    match skipBlanks text with
    | ',' :: rest => do
      let (a, rest) ← item? (skipBlanks rest)
      let (others, rest) ← others? most rest
      return (a :: others, rest)
    | c :: rest => if c = closing then some ([], rest) else none
    | [] => none

/-- Items after an opening bracket. -/
def items? (text : List Char) : Option (List α × List Char) :=
  match skipBlanks text with
  | [] => none
  | c :: rest =>
    if c = closing then some ([], rest)
    else do
      let (a, rest) ← item? (c :: rest)
      let (others, rest) ← others? item? closing rest.length rest
      return (a :: others, rest)

end Items

/-- A field of an object. -/
def field? (value? : List Char → Option (Json × List Char)) :
    List Char → Option ((String × Json) × List Char)
  | '"' :: rest => do
    let (key, rest) ← string? rest
    match skipBlanks rest with
    | ':' :: rest =>
      let (value, rest) ← value? (skipBlanks rest)
      return ((key, value), rest)
    | _ => none
  | _ => none

/-- A value that is spelled by a word. -/
def word? (word : String) (j : Json) (text : List Char) : Option (Json × List Char) :=
  if word.toList <+: text then some (j, text.drop word.toList.length) else none

/-- A value in which brackets are nested at most to the given depth. -/
def value? : Nat → List Char → Option (Json × List Char)
  | 0, _ => none
  | depth + 1, text =>
    match text with
    | '"' :: rest => (string? rest).map fun (s, rest) => (.string s, rest)
    | '[' :: rest => (items? (value? depth) ']' rest).map fun (items, rest) => (.array items, rest)
    | '\x7b' :: rest =>
      (items? (field? (value? depth)) '\x7d' rest).map fun (fields, rest) => (.object fields, rest)
    | text =>
      word? "null" .null text <|> word? "true" (.bool true) text <|>
        word? "false" (.bool false) text <|> number? text

/-- The value that a whole text spells. -/
def read? (text : String) : Option Json := do
  let (j, rest) ← value? (text.length + 1) (skipBlanks text.toList)
  if skipBlanks rest = [] then return j else none


/-! ## Strings -/

section Strings

theorem hexValue?_digitChar : ∀ n < 16, hexValue? (Nat.digitChar n) = some n := by
  decide

theorem codeUnit?_digits {high low : Nat} (hhigh : high < 16) (hlow : low < 16)
    (rest : List Char) :
    codeUnit? ('0' :: '0' :: Nat.digitChar high :: Nat.digitChar low :: rest) =
      some (16 * high + low, rest) := by
  have hzero : hexValue? '0' = some 0 := rfl
  simp [codeUnit?, hzero, hexValue?_digitChar high hhigh, hexValue?_digitChar low hlow]

theorem character?_escape (c : Char) (rest : List Char) :
    character? (escape c ++ rest) = some (c, rest) := by
  unfold escape
  split_ifs with hquote hbackslash hb hf hn hr ht hcontrol
  · rw [hquote]
    rfl
  · rw [hbackslash]
    rfl
  · rw [hb]
    rfl
  · rw [hf]
    rfl
  · rw [hn]
    rfl
  · rw [hr]
    rfl
  · rw [ht]
    rfl
  · have hcode : 16 * (c.toNat / 16) + c.toNat % 16 = c.toNat := Nat.div_add_mod c.toNat 16
    have hhigh : c.toNat / 16 < 16 := by omega
    have hlow : c.toNat % 16 < 16 := by omega
    have hread := codeUnit?_digits hhigh hlow rest
    rw [hcode] at hread
    have hvalid : c.toNat.isValidChar := c.valid
    change coded? ('0' :: '0' :: Nat.digitChar (c.toNat / 16) ::
      Nat.digitChar (c.toNat % 16) :: rest) = some (c, rest)
    simp [coded?, hread, hvalid]
  · rw [List.singleton_append, character?]
    · rw [if_neg (by simp [*])]
    · rintro c' tail rfl
      exact absurd rfl hbackslash

theorem head?_escape (c : Char) (rest : List Char) : (escape c ++ rest).head? ≠ some '"' := by
  unfold escape
  split_ifs with hquote <;> simp [*]

theorem characters?_succ {text : List Char} (h : text.head? ≠ some '"') (most : Nat) :
    characters? (most + 1) text = (do
      let (c, rest) ← character? text
      let (cs, rest) ← characters? most rest
      return (c :: cs, rest)) := by
  rw [characters?]
  rintro tail rfl
  exact h rfl

theorem characters?_escaped (cs rest : List Char) {most : Nat}
    (hmost : (cs.flatMap escape).length ≤ most) :
    characters? most (cs.flatMap escape ++ '"' :: rest) = some (cs, rest) := by
  induction cs generalizing most with
  | nil => rw [List.flatMap_nil, List.nil_append, characters?]
  | cons c cs ih =>
    have hread := character?_escape c (cs.flatMap escape ++ '"' :: rest)
    have hhead := head?_escape c (cs.flatMap escape ++ '"' :: rest)
    have hsome : 0 < (escape c).length := by
      unfold escape
      split_ifs <;> simp
    rw [List.flatMap_cons, List.length_append] at hmost
    rw [List.flatMap_cons, List.append_assoc]
    obtain ⟨most, rfl⟩ := Nat.exists_eq_succ_of_ne_zero (by omega : most ≠ 0)
    have hothers := ih (by omega : (cs.flatMap escape).length ≤ most)
    simp [characters?_succ hhead, hread, hothers]

theorem string?_quoted (s : String) (rest : List Char) :
    string? (s.toList.flatMap escape ++ '"' :: rest) = some (s, rest) := by
  rw [string?, characters?_escaped _ _ (by simp)]
  simp

end Strings

/-! ## Numbers -/

/-- The text does not go on with what could belong to a number. -/
def Ends (rest : List Char) : Prop :=
  StartsNot (fun c => Name.isWordChar c || c == '.') rest

section Numbers

open Reader

variable {rest : List Char}

theorem Ends.number (h : Ends rest) : EndsNumber rest where
  word := h.mono fun c hc => by simp [hc]
  fraction tail htail := by
    rw [htail] at h
    cases h

theorem takeMinus_run (negative : Bool) {digits : List Char}
    (hdigits : ∀ c ∈ digits, c.isDigit = true) (hne : digits ≠ []) :
    takeMinus (minus negative ++ (digits ++ rest)) = (negative, digits ++ rest) := by
  obtain ⟨d, ds, rfl⟩ := List.exists_cons_of_ne_nil hne
  cases negative with
  | true => rfl
  | false =>
    change takeMinus (d :: (ds ++ rest)) = _
    rw [takeMinus]
    · rfl
    · rintro tail htail
      have hd := hdigits d List.mem_cons_self
      rw [(List.cons.inj htail).1] at hd
      cases hd

/-- A number is told by what follows its first digits. -/
theorem number?_run (negative : Bool) {digits : List Char}
    (hdigits : ∀ c ∈ digits, c.isDigit = true) (hwhole : isWhole digits = true)
    (hrest : StartsNot Char.isDigit rest) :
    number? (minus negative ++ (digits ++ rest)) =
      match floatTail? rest with
      | some (fraction, exponent, final) =>
        some (.float (Numeral.value ⟨negative, digits, fraction, exponent⟩), final)
      | none => some (.int (signedValue negative digits), rest) := by
  have hne : digits ≠ [] := by
    rintro rfl
    cases hwhole
  rw [number?, takeMinus_run negative hdigits hne]
  simp only [takeWhile_run hdigits hrest, dropWhile_run hdigits hrest, hwhole, Bool.not_true,
    Bool.false_eq_true, if_false]

/-- No zero stands before the digits of a positive number. -/
theorem head?_toDigits {n : Nat} (hpos : 0 < n) :
    (Nat.toDigits 10 n).head?.any (· != '0') = true := by
  induction n using Nat.strongRecOn with
  | ind n ih =>
    by_cases hlt : n < 10
    · have hne : n ≠ 0 := Nat.ne_of_gt hpos
      simp [Nat.toDigits_of_lt_base hlt, hne]
    · have hbelow := ih (n / 10) (by omega) (by omega)
      rw [Nat.toDigits_of_base_le (by decide) (Nat.le_of_not_lt hlt)]
      cases hdigits : Nat.toDigits 10 (n / 10) with
      | nil => exact absurd hdigits Nat.toDigits_ne_nil
      | cons first others => rwa [hdigits] at hbelow

theorem isWhole_toDigits (n : Nat) : isWhole (Nat.toDigits 10 n) = true := by
  rcases Nat.eq_zero_or_pos n with rfl | hpos
  · rfl
  · rw [isWhole, head?_toDigits hpos, Bool.or_true]

theorem number?_integerText (value : Int) (hrest : Ends rest) :
    number? ((integerText value).toList ++ rest) = some (.int value, rest) := by
  rw [integerText_toList, List.append_assoc, number?_run _ (toDigits_all _) (isWhole_toDigits _)
    (startsNot_digit hrest.number.word), floatTail?_eq_none hrest.number]
  simp only [signedValue_toDigits]

/-- The first digits of a number are those of an integer, and then there is a point or an exponent
part. -/
def Leads (text : List Char) : Prop :=
  ∃ whole c tail, text = whole ++ c :: tail ∧ (∀ c ∈ whole, c.isDigit = true) ∧
    isWhole whole = true ∧ c.isDigit = false

variable {digits : List Char} (hdigits : ∀ c ∈ digits, c.isDigit = true)
  (hlead : digits.head?.any (· != '0') = true)
include hdigits hlead

theorem leads_positional (lead : Int) : Leads (NumberLayout.positional digits lead) := by
  unfold NumberLayout.positional
  split
  · exact ⟨['0'], '.', _, rfl, by simp, rfl, rfl⟩
  · refine ⟨digits.take (lead.toNat + 1) ++ List.replicate (lead.toNat + 1 - digits.length) '0',
      '.', _, rfl, ?_, ?_, rfl⟩
    · intro c hc
      rcases List.mem_append.mp hc with hc | hc
      · exact hdigits c (List.mem_of_mem_take hc)
      · exact replicate_zero_digits _ c hc
    · cases digits with
      | nil => cases hlead
      | cons first others =>
        rw [isWhole, List.take_succ_cons, List.cons_append, List.head?_cons]
        exact Bool.or_eq_true_iff.mpr (Or.inr hlead)

theorem leads_scientific (layout : NumberLayout) (lead : Int) :
    Leads (layout.scientific digits lead) := by
  cases digits with
  | nil => cases hlead
  | cons first others =>
    have hfirst : ∀ c ∈ [first], c.isDigit = true :=
      List.forall_mem_singleton.mpr (hdigits first List.mem_cons_self)
    have hwhole : isWhole [first] = true := Bool.or_eq_true_iff.mpr (Or.inr hlead)
    cases others with
    | nil => exact ⟨[first], 'e', _, rfl, hfirst, hwhole, rfl⟩
    | cons second others => exact ⟨[first], '.', _, rfl, hfirst, hwhole, rfl⟩

omit hdigits hlead in
theorem trimmed_digits_pos {significand scale : Nat} (canonical : Canonical significand scale)
    (hne : significand ≠ 0) (tie : Tie) :
    0 < (Decimal.shortest tie significand scale canonical).trimZeros.digits := by
  have hvalue := Decimal.ofDecimal_trimZeros false
    (Decimal.shortest tie significand scale canonical)
  rw [Decimal.ofDecimal_shortest canonical tie false (Nat.pos_of_ne_zero hne)] at hvalue
  apply Nat.pos_of_ne_zero
  intro hnone
  rw [hnone, Binary64.ofDecimal] at hvalue
  simp only [Binary64.zero, if_true, Binary64.finite.injEq] at hvalue
  exact hne hvalue.2.1.symm

omit hdigits hlead in
/-- The text of a finite float begins like that of an integer. -/
theorem leads_text (layout : NumberLayout) {value : Binary64} (hfinite : value.isFinite = true) :
    ∃ negative magnitude, layout.text value = minus negative ++ magnitude ∧ Leads magnitude := by
  match value, hfinite with
  | .finite negative significand scale canonical, _ =>
    refine ⟨negative, _, rfl, ?_⟩
    by_cases hzero : significand = 0
    · rw [if_pos hzero]
      exact ⟨['0'], '.', _, rfl, by simp, rfl, rfl⟩
    · rw [if_neg hzero, NumberLayout.magnitude]
      have hlead := head?_toDigits (trimmed_digits_pos canonical hzero layout.tie)
      split
      · exact leads_positional (toDigits_all _) hlead _
      · exact leads_scientific (toDigits_all _) hlead _ _

omit hdigits hlead in
theorem number?_floatText {value : Binary64} (hfinite : value.isFinite = true)
    (hrest : Ends rest) :
    number? ((floatText value).toList ++ rest) = some (.float value, rest) := by
  obtain ⟨negative, _, htext, whole, c, tail, rfl, hdigits, hwhole, hc⟩ :=
    leads_text numbers hfinite
  have hne : whole ≠ [] := by
    rintro rfl
    cases hwhole
  have hends : StartsNot Char.isDigit (c :: tail ++ rest) := startsNot_cons.mpr hc
  have hread := number?_text numbers hfinite hrest.number
  rw [htext, List.append_assoc, List.append_assoc, Reader.number?_run hdigits hne negative hends]
    at hread
  rw [floatText, if_pos hfinite, String.toList_ofList, htext, List.append_assoc, List.append_assoc,
    number?_run negative hdigits hwhole hends]
  cases htail : floatTail? (c :: tail ++ rest) with
  | some found =>
    rw [htail] at hread
    cases hread
    rfl
  | none =>
    rw [htail] at hread
    obtain ⟨_, _, hint⟩ := Option.map_eq_some_iff.mp hread
    cases hint

end Numbers

/-! ## Items between brackets -/

theorem isBlank_iff {c : Char} :
    isBlank c = true ↔ c = ' ' ∨ c = '\t' ∨ c = '\n' ∨ c = '\r' := by
  simp [isBlank, or_assoc]

theorem skipBlanks_blanks {blanks : List Char} (h : ∀ c ∈ blanks, isBlank c = true)
    (text : List Char) : skipBlanks (blanks ++ text) = skipBlanks text :=
  List.dropWhile_append_of_pos h

theorem skipBlanks_cons {c : Char} (h : isBlank c = false) (text : List Char) :
    skipBlanks (c :: text) = c :: text :=
  dropWhile_of_startsNot (startsNot_cons.mpr h)

theorem Spacing.isBlank_gap (spacing : Spacing) (level : Nat) :
    ∀ c ∈ spacing.gap level, isBlank c = true := by
  intro c hc
  rcases spacing.gap_blank level c hc with rfl | rfl <;> rfl

theorem Spacing.isBlank_colon (spacing : Spacing) : ∀ c ∈ spacing.colon, isBlank c = true := by
  intro c hc
  rw [spacing.colon_blank c hc]
  rfl

section Enclosed

variable {α : Type} {spacing : Spacing} {item? : List Char → Option (α × List Char)}
  {text : α → List Char} {closing : Char} {level : Nat}

theorem Ends.blanks {blanks rest : List Char} (hblanks : ∀ c ∈ blanks, isBlank c = true)
    (h : Ends rest) : Ends (blanks ++ rest) := by
  cases blanks with
  | nil => exact h
  | cons c blanks =>
    rcases isBlank_iff.mp (hblanks c List.mem_cons_self) with rfl | rfl | rfl | rfl <;> rfl

/-- The items that follow the first one, up to the closing bracket. -/
def followed (spacing : Spacing) (text : α → List Char) (closing : Char) (level : Nat)
    (items : List α) (rest : List Char) : List Char :=
  items.flatMap (fun item => ',' :: (spacing.gap (level + 1) ++ text item)) ++
    (spacing.gap level ++ closing :: rest)

theorem followed_cons (spacing : Spacing) (text : α → List Char) (closing : Char) (level : Nat)
    (item : α) (items : List α) (rest : List Char) :
    followed spacing text closing level (item :: items) rest =
      ',' :: (spacing.gap (level + 1) ++
        (text item ++ followed spacing text closing level items rest)) := by
  simp [followed]

theorem enclosed_cons (spacing : Spacing) (text : α → List Char) (opening closing : Char)
    (level : Nat) (item : α) (items : List α) (rest : List Char) :
    spacing.enclosed opening closing level ((item :: items).map text) ++ rest =
      opening :: (spacing.gap (level + 1) ++
        (text item ++ followed spacing text closing level items rest)) := by
  simp [followed, Spacing.enclosed, List.flatMap_map]

theorem length_followed (spacing : Spacing) (text : α → List Char) (closing : Char) (level : Nat)
    (items : List α) (rest : List Char) :
    items.length < (followed spacing text closing level items rest).length := by
  induction items with
  | nil => simp [followed]
  | cons item items ih =>
    rw [followed_cons]
    simp only [List.length_cons, List.length_append]
    omega

/-- The items are read back, and none of them begins with a blank or with the closing bracket. -/
structure ReadsBack (item? : List Char → Option (α × List Char)) (text : α → List Char)
    (closing : Char) (items : List α) : Prop where
  begins : ∀ a ∈ items, ∃ c tail, text a = c :: tail ∧ isBlank c = false ∧ c ≠ closing
  reads : ∀ a ∈ items, ∀ rest, Ends rest → item? (text a ++ rest) = some (a, rest)

theorem ReadsBack.of_cons {a : α} {items : List α}
    (h : ReadsBack item? text closing (a :: items)) : ReadsBack item? text closing items :=
  ⟨fun b hb => h.begins b (List.mem_cons_of_mem a hb),
    fun b hb => h.reads b (List.mem_cons_of_mem a hb)⟩

theorem ReadsBack.skipBlanks_gap {a : α} {items : List α}
    (h : ReadsBack item? text closing (a :: items)) (level : Nat) (rest : List Char) :
    skipBlanks (spacing.gap level ++ (text a ++ rest)) = text a ++ rest := by
  obtain ⟨c, tail, htext, hc, _⟩ := h.begins a List.mem_cons_self
  rw [skipBlanks_blanks (spacing.isBlank_gap level), htext, List.cons_append, skipBlanks_cons hc]

variable (hclosing : closing = ']' ∨ closing = '\x7d') {items : List α}
include hclosing

theorem isBlank_closing : isBlank closing = false := by
  rcases hclosing with rfl | rfl <;> rfl

theorem ends_followed (spacing : Spacing) (text : α → List Char) (level : Nat) (items : List α)
    (rest : List Char) : Ends (followed spacing text closing level items rest) := by
  cases items with
  | nil =>
    apply Ends.blanks (spacing.isBlank_gap level)
    rcases hclosing with rfl | rfl <;> rfl
  | cons item items => rfl

theorem others?_followed (h : ReadsBack item? text closing items) (spacing : Spacing) (level : Nat)
    (rest : List Char) {most : Nat} (hmost : items.length < most) :
    others? item? closing most (followed spacing text closing level items rest) =
      some (items, rest) := by
  induction items generalizing most with
  | nil =>
    obtain ⟨most, rfl⟩ := Nat.exists_eq_succ_of_ne_zero (Nat.ne_zero_of_lt hmost)
    rw [followed, List.flatMap_nil, List.nil_append, others?,
      skipBlanks_blanks (spacing.isBlank_gap level), skipBlanks_cons (isBlank_closing hclosing)]
    rcases hclosing with rfl | rfl <;> rfl
  | cons a items ih =>
    obtain ⟨most, rfl⟩ := Nat.exists_eq_succ_of_ne_zero (Nat.ne_zero_of_lt hmost)
    have hread := h.reads a List.mem_cons_self _
      (ends_followed hclosing spacing text level items rest)
    have hothers := ih h.of_cons (Nat.lt_of_succ_lt_succ hmost)
    rw [followed_cons, others?, skipBlanks_cons rfl]
    simp only [h.skipBlanks_gap, hread, Option.bind_eq_bind, Option.bind_some, hothers]
    rfl

theorem items?_enclosed (h : ReadsBack item? text closing items) (spacing : Spacing)
    (opening : Char) (level : Nat) (rest : List Char) :
    ∃ tail, spacing.enclosed opening closing level (items.map text) ++ rest = opening :: tail ∧
      items? item? closing tail = some (items, rest) := by
  cases items with
  | nil =>
    refine ⟨closing :: rest, rfl, ?_⟩
    rw [items?, skipBlanks_cons (isBlank_closing hclosing)]
    exact if_pos rfl
  | cons a items =>
    obtain ⟨c, tail, htext, _, hc⟩ := h.begins a List.mem_cons_self
    have hread := h.reads a List.mem_cons_self _
      (ends_followed hclosing spacing text level items rest)
    have hothers := others?_followed hclosing h.of_cons spacing level rest
      (length_followed spacing text closing level items rest)
    refine ⟨_, enclosed_cons spacing text opening closing level a items rest, ?_⟩
    rw [items?, h.skipBlanks_gap]
    rw [htext, List.cons_append] at hread ⊢
    simp only [if_neg hc, hread, Option.bind_eq_bind, Option.bind_some, hothers]
    rfl

end Enclosed


/-! ## Values -/

/-- All floats in a value are finite, so that each of them has a text of its own. -/
inductive Exact : Json → Prop
  | null : Exact null
  | bool (value : Bool) : Exact (bool value)
  | int (value : Int) : Exact (int value)
  | float {value : Binary64} (hfinite : value.isFinite = true) : Exact (float value)
  | string (value : String) : Exact (string value)
  | array {items : List Json} (hitems : ∀ item ∈ items, Exact item) : Exact (array items)
  | object {fields : List (String × Json)} (hfields : ∀ field ∈ fields, Exact field.2) :
    Exact (object fields)

@[simp] theorem exact_null : null.Exact := .null

@[simp] theorem exact_bool (value : Bool) : (bool value).Exact := .bool value

@[simp] theorem exact_int (value : Int) : (int value).Exact := .int value

@[simp] theorem exact_string (value : String) : (string value).Exact := .string value

@[simp]
theorem exact_float_iff {value : Binary64} : (float value).Exact ↔ value.isFinite = true := by
  constructor
  · intro h
    cases h with
    | float hfinite => exact hfinite
  · exact .float

@[simp]
theorem exact_array_iff {items : List Json} : (array items).Exact ↔ ∀ item ∈ items, item.Exact := by
  constructor
  · intro h
    cases h with
    | array hitems => exact hitems
  · exact .array

@[simp]
theorem exact_object_iff {fields : List (String × Json)} :
    (object fields).Exact ↔ ∀ field ∈ fields, field.2.Exact := by
  constructor
  · intro h
    cases h with
    | object hfields => exact hfields
  · exact .object

section Values

variable {spacing : Spacing} {level depth : Nat} {j j' : Json} {text rest : List Char}

/-- No value begins with a blank or with the closing bracket of an array. -/
theorem begins_of_value? {found : Json × List Char} (h : value? depth text = some found) :
    ∃ c tail, text = c :: tail ∧ isBlank c = false ∧ c ≠ ']' := by
  cases depth with
  | zero => cases h
  | succ depth =>
    cases text with
    | nil => cases h
    | cons c tail =>
      refine ⟨c, tail, rfl, ?_, ?_⟩
      · apply Bool.eq_false_iff.mpr
        intro hc
        rcases isBlank_iff.mp hc with rfl | rfl | rfl | rfl <;> cases h
      · rintro rfl
        cases h

theorem first_of_number? {found : Json × List Char} (h : number? text = some found) :
    ∃ c tail, text = c :: tail ∧ (c = '-' ∨ c.isDigit = true) := by
  cases text with
  | nil => cases h
  | cons c tail =>
    refine ⟨c, tail, rfl, ?_⟩
    by_cases hminus : c = '-'
    · exact Or.inl hminus
    · refine Or.inr (Bool.of_not_eq_false fun hdigit => ?_)
      have hsign : takeMinus (c :: tail) = (false, c :: tail) := by
        rw [takeMinus]
        rintro tail' htail
        exact hminus (List.cons.inj htail).1
      have hnone : (c :: tail).takeWhile Char.isDigit = [] :=
        takeWhile_of_startsNot (startsNot_cons.mpr hdigit)
      simp [number?, hsign, hnone, isWhole] at h

theorem word?_eq_none {word : String} {first c : Char} {letters : List Char}
    (hword : word.toList = first :: letters) (hne : first ≠ c) (j : Json) (tail : List Char) :
    word? word j (c :: tail) = none := by
  simp [word?, hword, hne]

/-- What is a number begins like no other value. -/
theorem value?_number {found : Json × List Char} (h : number? text = some found) :
    value? (depth + 1) text = some found := by
  obtain ⟨c, tail, rfl, hc⟩ := first_of_number? h
  have hne : ∀ d : Char, d ≠ '-' → d.isDigit = false → d ≠ c := by
    rintro d hminus hdigit rfl
    rcases hc with hc | hc
    · exact hminus hc
    · rw [hdigit] at hc
      cases hc
  rw [value?]
  · rw [word?_eq_none rfl (hne 'n' (by decide) rfl), word?_eq_none rfl (hne 't' (by decide) rfl),
      word?_eq_none rfl (hne 'f' (by decide) rfl), h]
    rfl
  · rintro tail' htail
    exact hne '"' (by decide) rfl (List.cons.inj htail).1.symm
  · rintro tail' htail
    exact hne '[' (by decide) rfl (List.cons.inj htail).1.symm
  · rintro tail' htail
    exact hne '\x7b' (by decide) rfl (List.cons.inj htail).1.symm

theorem quoted_append (s : String) (rest : List Char) :
    quoted s ++ rest = '"' :: (s.toList.flatMap escape ++ '"' :: rest) := by
  simp [quoted]

theorem field?_written {field : String × Json}
    (h : value? depth (written spacing level field.2 ++ rest) = some (field.2, rest)) :
    field? (value? depth) (writtenField spacing level field ++ rest) = some (field, rest) := by
  obtain ⟨c, tail, hbegins, hc, _⟩ := begins_of_value? h
  have hvalue : skipBlanks (spacing.colon ++ (written spacing level field.2 ++ rest)) =
      written spacing level field.2 ++ rest := by
    rw [skipBlanks_blanks spacing.isBlank_colon, hbegins, skipBlanks_cons hc]
  rw [writtenField, List.append_assoc, quoted_append, field?, List.cons_append, List.append_assoc,
    string?_quoted]
  simp only [Option.bind_eq_bind, Option.bind_some, skipBlanks_cons (rfl : isBlank ':' = false),
    hvalue, h]
  rfl

theorem length_lt_enclosed (spacing : Spacing) (opening closing : Char) (level : Nat)
    {texts : List (List Char)} {item : List Char} (h : item ∈ texts) :
    item.length < (spacing.enclosed opening closing level texts).length := by
  obtain ⟨first, others, rfl⟩ := List.exists_cons_of_ne_nil (List.ne_nil_of_mem h)
  rcases List.mem_cons.mp h with rfl | hother
  · simp only [Spacing.enclosed, List.length_cons, List.length_append]
    omega
  · obtain ⟨before, after, rfl⟩ := List.append_of_mem hother
    simp only [Spacing.enclosed, List.flatMap_append, List.flatMap_cons, List.length_cons,
      List.length_append]
    omega

theorem value?_array {items : List Json}
    (h : ∀ item ∈ items, ∀ rest, Ends rest →
      value? depth (written spacing (level + 1) item ++ rest) = some (item, rest)) :
    value? (depth + 1) (written spacing level (array items) ++ rest) =
      some (array items, rest) := by
  have hreads : ReadsBack (value? depth) (written spacing (level + 1)) ']' items := by
    refine ⟨fun item hitem => ?_, h⟩
    have hread := h item hitem [] startsNot_nil
    rw [List.append_nil] at hread
    exact begins_of_value? hread
  obtain ⟨tail, htail, hitems⟩ := items?_enclosed (Or.inl rfl) hreads spacing '[' level rest
  rw [written, writtenItems_eq_map, htail]
  exact congrArg (Option.map _) hitems

theorem value?_object {fields : List (String × Json)}
    (h : ∀ field ∈ fields, ∀ rest, Ends rest →
      value? depth (written spacing (level + 1) field.2 ++ rest) = some (field.2, rest)) :
    value? (depth + 1) (written spacing level (object fields) ++ rest) =
      some (object fields, rest) := by
  have hreads : ReadsBack (field? (value? depth)) (writtenField spacing (level + 1)) '\x7d'
      fields :=
    ⟨fun _ _ => ⟨'"', _, rfl, rfl, by decide⟩,
      fun field hfield rest hrest => field?_written (h field hfield rest hrest)⟩
  obtain ⟨tail, htail, hfields⟩ := items?_enclosed (Or.inr rfl) hreads spacing '\x7b' level rest
  rw [written, writtenFields_eq_map, htail]
  exact congrArg (Option.map _) hfields

/-- A written value is read back, whatever follows it, as long as it cannot be taken for a part of
a number. -/
theorem Exact.value?_written (h : j.Exact) (hdepth : (written spacing level j).length < depth)
    (hrest : Ends rest) : value? depth (written spacing level j ++ rest) = some (j, rest) := by
  -- what stands between brackets is shorter than the whole, so the depth is enough for it
  induction depth generalizing j level rest with
  | zero => exact absurd hdepth (Nat.not_lt_zero _)
  | succ depth ih =>
    cases h with
    | null => rfl
    | bool value => cases value <;> rfl
    | int value => exact value?_number (number?_integerText value hrest)
    | float hfinite => exact value?_number (number?_floatText hfinite hrest)
    | string value =>
      rw [written, quoted_append, value?, string?_quoted]
      rfl
    | @array items hitems =>
      apply value?_array
      intro item hitem rest hrest
      apply ih (hitems item hitem) _ hrest
      rw [written, writtenItems_eq_map] at hdepth
      have hshorter := length_lt_enclosed spacing '[' ']' level
        (List.mem_map_of_mem (f := written spacing (level + 1)) hitem)
      omega
    | @object fields hfields =>
      apply value?_object
      intro field hfield rest hrest
      apply ih (hfields field hfield) _ hrest
      rw [written, writtenFields_eq_map] at hdepth
      have hshorter := length_lt_enclosed spacing '\x7b' '\x7d' level
        (List.mem_map_of_mem (f := writtenField spacing (level + 1)) hfield)
      simp only [writtenField, List.length_append, List.length_cons] at hshorter
      omega

/-- A text is read as the value whose written form it is, with or without blanks after it. -/
theorem Exact.read?_written (h : j.Exact) {text : String} {blanks : List Char}
    (hblanks : ∀ c ∈ blanks, isBlank c = true)
    (htext : text.toList = written spacing level j ++ blanks) : read? text = some j := by
  have hlength : (written spacing level j).length < text.length + 1 := by
    rw [← String.length_toList, htext, List.length_append]
    omega
  have hends : Ends blanks := by
    rw [← List.append_nil blanks]
    exact Ends.blanks hblanks startsNot_nil
  have hread := h.value?_written hlength hends
  obtain ⟨c, tail, hbegins, hc, _⟩ := begins_of_value? hread
  have hnone : skipBlanks blanks = [] := by
    rw [← List.append_nil blanks, skipBlanks_blanks hblanks]
    rfl
  have hskip : skipBlanks text.toList = written spacing level j ++ blanks := by
    rw [htext, hbegins, skipBlanks_cons hc]
  rw [read?, hskip, hread]
  simp only [Option.bind_eq_bind, Option.bind_some, hnone, if_true]
  rfl

/-- Blanks may stand anywhere between the parts, and a letter may be spelled by its code. -/
example : read? " [ 1 ,\"\\u00e9\\ud834\\udd1e\", \x7b\"a\" :null\x7d ]\n" =
    some (.array [.int 1, .string "é𝄞", .object [("a", .null)]]) := by
  rfl

/-- There is no comma before a closing bracket, and no empty text. -/
example : read? "[1,]" = none ∧ read? "" = none :=
  ⟨rfl, rfl⟩

theorem Exact.read?_compact (h : j.Exact) : read? j.compact = some j :=
  h.read?_written (List.forall_mem_nil _) (by rw [toList_compact 0, List.append_nil])

theorem Exact.read?_pretty (h : j.Exact) : read? j.pretty = some j :=
  h.read?_written (List.forall_mem_nil _) (by rw [pretty, toList_prettyAt, List.append_nil])

theorem Exact.eq_of_compact (h : j.Exact) (h' : j'.Exact) (htext : j.compact = j'.compact) :
    j = j' := by
  rw [← Option.some.injEq, ← h.read?_compact, ← h'.read?_compact, htext]

theorem Exact.eq_of_pretty (h : j.Exact) (h' : j'.Exact) (htext : j.pretty = j'.pretty) :
    j = j' := by
  rw [← Option.some.injEq, ← h.read?_pretty, ← h'.read?_pretty, htext]

end Values

end ProgramTree.Json
