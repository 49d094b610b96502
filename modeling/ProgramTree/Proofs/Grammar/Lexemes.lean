import ProgramTree.Proofs.Grammar.Language

/-! # Readers of tokens and the tokens of the grammar

What the reader of a token takes off a text is a token of the grammar, and a
token of the grammar is read off every text in which it stands, if what follows
does not go on with it. -/

namespace ProgramTree.Grammar

set_option autoImplicit false

open Reader

variable {text start rest : List Char}

section Blanks

theorem afterBlanks_refl (text : List Char) : AfterBlanks text text :=
  ⟨[], fun _ hc => (List.not_mem_nil hc).elim, rfl⟩

theorem afterBlanks_skipSpaces (text : List Char) : AfterBlanks text (skipSpaces text) := by
  refine ⟨text.takeWhile isSpace, ?_, List.takeWhile_append_dropWhile.symm⟩
  intro c hc
  exact List.all_eq_true.mp List.all_takeWhile c hc

theorem AfterBlanks.skipSpaces_eq (h : AfterBlanks text start) (hstart : StartsNot isSpace start) :
    skipSpaces text = start := by
  obtain ⟨blanks, hblanks, rfl⟩ := h
  rw [skipSpaces_blanks hblanks, skipSpaces_of_startsNot hstart]

theorem symbol_of_skipSpaces {symbol : List Char} (h : skipSpaces text = symbol ++ rest) :
    Symbol symbol text rest := by
  unfold Symbol
  rw [← h]
  exact afterBlanks_skipSpaces text

theorem Symbol.skipSpaces_eq {c : Char} {tail : List Char} (h : Symbol (c :: tail) text rest)
    (hc : isSpace c = false) : skipSpaces text = c :: (tail ++ rest) :=
  AfterBlanks.skipSpaces_eq h (startsNot_cons.mpr hc)

theorem Symbol.operator {op : BinaryOp} (h : Symbol op.symbol.toList text rest) :
    skipSpaces text = op.symbol.toList ++ rest := by
  apply AfterBlanks.skipSpaces_eq h
  cases op <;> exact startsNot_cons.mpr (by decide)

theorem symbol_of_symbolOr {complaint : Complaint} {c : Char}
    (h : symbolOr complaint c text = .ok () rest) : Symbol [c] text rest := by
  apply symbol_of_skipSpaces
  unfold symbolOr at h
  split at h
  · cases h
  · rename_i d tail hskip
    split at h
    · rename_i hd
      cases h
      rw [hskip, hd]
      rfl
    · cases h

end Blanks

section Words

variable {name : List Char}

theorem identifier_eq_ok : identifier text = .ok name rest ↔ Identifier name text rest := by
  constructor
  · intro h
    rw [identifier_eq] at h
    split at h
    · rename_i hid
      cases h
      exact ⟨List.takeWhile_append_dropWhile.symm, hid, startsNot_dropWhile _ text⟩
    · cases h
  · rintro ⟨rfl, hid, hends⟩
    exact identifier_run hends hid

theorem Identifier.head (h : Identifier name text rest) :
    ∃ c tail, text = c :: tail ∧ Name.isWordStart c = true := by
  obtain ⟨c, tail, hname, hc, _⟩ := exists_of_isIdentifier h.isIdentifier
  exact ⟨c, tail ++ rest, by rw [h.text_eq, hname, List.cons_append], hc⟩

theorem Identifier.length_lt (h : Identifier name text rest) : rest.length < text.length := by
  obtain ⟨c, tail, hname, _⟩ := exists_of_isIdentifier h.isIdentifier
  rw [h.text_eq, hname, List.length_append, List.length_cons]
  omega

theorem Qualified.head (h : Qualified name text rest) :
    ∃ c tail, text = c :: tail ∧ Name.isWordStart c = true := by
  cases h with
  | plain h => exact h.head
  | inPackage h _ => exact h.head

theorem Qualified.length_lt (h : Qualified name text rest) : rest.length < text.length := by
  cases h with
  | plain h => exact h.length_lt
  | inPackage hpackage hname =>
    have hfirst := hpackage.length_lt
    have hsecond := hname.length_lt
    rw [List.length_cons] at hfirst
    omega

/-- A single identifier is all of a qualified name only where no colon goes on with it. -/
theorem Qualified.read (h : Qualified name text rest) (hcolon : rest.head? ≠ some ':') :
    qualified text = .ok name rest := by
  cases h with
  | plain h =>
    rw [h.text_eq]
    exact qualified_run_identifier h.ends hcolon h.isIdentifier
  | inPackage hpackage hname =>
    rw [hpackage.text_eq, hname.text_eq]
    exact qualified_run_pair hname.ends hpackage.isIdentifier hname.isIdentifier

theorem identifier_of_qualifier (h : qualifier text = .ok name rest) :
    ∃ mid second, text = ':' :: mid ∧ name = ':' :: second ∧ Identifier second mid rest := by
  unfold qualifier at h
  split at h
  · rename_i mid
    obtain ⟨second, last, hsecond, hreturn⟩ := bind_eq_ok.mp h
    cases hreturn
    exact ⟨mid, second, rfl, rfl, identifier_eq_ok.mp hsecond⟩
  · cases h

theorem qualified_of_read (h : qualified text = .ok name rest) : Qualified name text rest := by
  obtain ⟨first, mid, hfirst, h⟩ := bind_eq_ok.mp h
  obtain ⟨second, last, hsecond, hreturn⟩ := bind_eq_ok.mp h
  cases hreturn
  rcases optional_eq_ok hsecond with ⟨name, rfl, hname⟩ | ⟨rfl, rfl⟩
  · obtain ⟨after, second, rfl, rfl, hidentifier⟩ := identifier_of_qualifier hname
    exact .inPackage (identifier_eq_ok.mp hfirst) hidentifier
  · rw [Option.getD_none, List.append_nil]
    exact .plain (identifier_eq_ok.mp hfirst)

end Words

section Numbers

variable {digits fraction spelled : List Char} {exponent : Int} {value : Literal}

theorem digits_takeWhile (h : text.takeWhile Char.isDigit ≠ []) :
    Digits (text.takeWhile Char.isDigit) :=
  ⟨h, fun c hc => List.all_eq_true.mp List.all_takeWhile c hc⟩

theorem exists_sign (text : List Char) :
    ∃ sign, Sign (Binary64.takeSign text).1 sign ∧ text = sign ++ (Binary64.takeSign text).2 := by
  unfold Binary64.takeSign
  split
  · exact ⟨['-'], .minus, rfl⟩
  · exact ⟨['+'], .plus, rfl⟩
  · exact ⟨[], .none, rfl⟩

theorem Exponent.read (h : Exponent exponent spelled) (hrest : StartsNot Char.isDigit rest) :
    exponentPart? (spelled ++ rest) = some (exponent, rest) := by
  cases h with
  | @mk marker negative sign digits hmarker hsign hdigits =>
    have hsign' : sign = ['-'] ∧ negative = true ∨
        (sign = ['+'] ∨ sign = []) ∧ negative = false := by
      cases hsign <;> simp
    rw [List.cons_append, List.append_assoc]
    exact exponentPart?_run hdigits.all hdigits.nonempty hmarker hsign' hrest

theorem exponent_of_read (h : exponentPart? text = some (exponent, rest)) :
    ∃ spelled, Exponent exponent spelled ∧ text = spelled ++ rest := by
  cases text with
  | nil => cases h
  | cons c text =>
    rw [exponentPart?] at h
    split at h
    · rename_i hmarker
      obtain ⟨sign, hsign, htext⟩ := exists_sign text
      simp only at h
      split at h
      · cases h
      · rename_i hne
        cases h
        refine ⟨_, .mk hmarker hsign (digits_takeWhile hne), ?_⟩
        rw [List.cons_append, List.append_assoc, List.takeWhile_append_dropWhile, ← htext]
    · cases h

theorem FloatTail.read (h : FloatTail fraction exponent spelled)
    (hrest : StartsNot Name.isWordChar rest) :
    floatTail? (spelled ++ rest) = some (fraction, exponent, rest) := by
  have hdigit := startsNot_digit hrest
  cases h with
  | fraction hfraction =>
    rw [List.cons_append, floatTail?_fraction hfraction.all hfraction.nonempty hdigit,
      exponentPart?_eq_none hrest]
  | exponent hexponent =>
    have hread := hexponent.read hdigit
    cases hexponent with
    | mk hmarker _ _ =>
      unfold floatTail?
      split
      · rename_i heq
        rcases hmarker with rfl | rfl <;> cases heq
      · rw [hread]
        rfl
  | @both _ _ tail hfraction hexponent =>
    have hread := hexponent.read hdigit
    have hends : StartsNot Char.isDigit (tail ++ rest) := by
      cases hexponent with
      | mk hmarker _ _ => rcases hmarker with rfl | rfl <;> rfl
    rw [List.cons_append, List.append_assoc,
      floatTail?_fraction hfraction.all hfraction.nonempty hends, hread]

theorem floatTail_of_read (h : floatTail? text = some (fraction, exponent, rest)) :
    ∃ spelled, FloatTail fraction exponent spelled ∧ text = spelled ++ rest := by
  unfold floatTail? at h
  split at h
  · rename_i after
    have hafter : after = after.takeWhile Char.isDigit ++ after.dropWhile Char.isDigit :=
      List.takeWhile_append_dropWhile.symm
    split at h
    · cases h
    · rename_i hne
      have hfraction := digits_takeWhile hne
      simp only at h
      split at h
      · rename_i hexponent
        cases h
        obtain ⟨spelled, hspelled, htail⟩ := exponent_of_read hexponent
        refine ⟨_, .both hfraction hspelled, ?_⟩
        rw [List.cons_append, List.append_assoc, ← htail, ← hafter]
      · cases h
        exact ⟨_, .fraction hfraction, by rw [List.cons_append, ← hafter]⟩
  · cases hexponent : exponentPart? text with
    | none => simp [hexponent] at h
    | some found =>
      obtain ⟨value, final⟩ := found
      simp only [hexponent, Option.map_some, Option.some.injEq, Prod.mk.injEq] at h
      obtain ⟨rfl, rfl, rfl⟩ := h
      obtain ⟨spelled, hspelled, htext⟩ := exponent_of_read hexponent
      exact ⟨spelled, .exponent hspelled, htext⟩

theorem FloatTail.startsNot_digit (h : FloatTail fraction exponent spelled) (rest : List Char) :
    StartsNot Char.isDigit (spelled ++ rest) := by
  cases h with
  | fraction _ => rfl
  | exponent h =>
    cases h with
    | mk hmarker _ _ => rcases hmarker with rfl | rfl <;> rfl
  | both _ _ => rfl

theorem Number.read (h : Number value spelled) (hrest : EndsNumber rest) :
    number? (spelled ++ rest) = some (value, rest) := by
  cases h with
  | @integer value negative digits hdigits hvalue =>
    rw [List.append_assoc,
      number?_run hdigits.all hdigits.nonempty negative (startsNot_digit hrest.word),
      floatTail?_eq_none hrest]
    simp only [int64?_eq_some.mpr hvalue, Option.map_some]
  | @float negative whole fraction tail exponent hwhole htail =>
    rw [List.append_assoc, List.append_assoc,
      number?_run hwhole.all hwhole.nonempty negative (htail.startsNot_digit rest),
      htail.read hrest.word]

theorem number_of_read (h : number? text = some (value, rest)) :
    ∃ spelled, Number value spelled ∧ text = spelled ++ rest := by
  unfold number? at h
  split at h
  rename_i negative body hsign
  have htext : text = minus negative ++ body := by
    split at hsign
    · cases hsign
      rfl
    · cases hsign
      rfl
  have hbody : body = body.takeWhile Char.isDigit ++ body.dropWhile Char.isDigit :=
    List.takeWhile_append_dropWhile.symm
  split at h
  · cases h
  · rename_i whole hne
    have hwhole := digits_takeWhile fun hnil => hne hnil
    simp only at h
    split at h
    · rename_i hfloat
      cases h
      obtain ⟨tail, htail, hrest⟩ := floatTail_of_read hfloat
      refine ⟨_, .float hwhole htail, ?_⟩
      rw [List.append_assoc, List.append_assoc, ← hrest, ← hbody, htext]
    · cases hint : int64? (signedValue negative (body.takeWhile Char.isDigit)) with
      | none => simp [hint] at h
      | some found =>
        simp only [hint, Option.map_some, Option.some.injEq, Prod.mk.injEq] at h
        obtain ⟨rfl, rfl⟩ := h
        refine ⟨_, .integer hwhole (int64?_eq_some.mp hint), ?_⟩
        rw [List.append_assoc, ← hbody, htext]

end Numbers

section Strings

variable {cs spelled : List Char}

theorem Quoted.read {c : Char} (h : Quoted c spelled) (hbody : stringBody text = .ok cs rest) :
    stringBody (spelled ++ text) = .ok (c :: cs) rest := by
  cases h with
  | plain hline hquote hbackslash =>
    rw [List.singleton_append, stringBody.eq_def]
    split <;> simp_all
  | escaped hescape =>
    simp only [List.mem_cons, Prod.mk.injEq, List.not_mem_nil, or_false] at hescape
    rcases hescape with ⟨rfl, rfl⟩ | ⟨rfl, rfl⟩ | ⟨rfl, rfl⟩ | ⟨rfl, rfl⟩ <;>
      simp [stringBody, hbody]

theorem quoted_escape (c : Char) : Quoted c (Literal.escape c) := by
  unfold Literal.escape
  by_cases hquote : c = '"'
  · rw [if_pos hquote]
    exact .escaped (by simp [hquote])
  rw [if_neg hquote]
  by_cases hbackslash : c = '\\'
  · rw [if_pos hbackslash]
    exact .escaped (by simp [hbackslash])
  rw [if_neg hbackslash]
  by_cases hline : c = '\n'
  · rw [if_pos hline]
    exact .escaped (by simp [hline])
  rw [if_neg hline]
  by_cases htab : c = '\t'
  · rw [if_pos htab]
    exact .escaped (by simp [htab])
  · rw [if_neg htab]
    exact .plain hline hquote hbackslash

/-- The printer writes a string as the grammar has it. -/
theorem quotedAll_escape (cs : List Char) : QuotedAll cs (cs.flatMap Literal.escape) := by
  induction cs with
  | nil => exact .nil
  | cons c cs ih =>
    rw [List.flatMap_cons]
    exact .cons (quoted_escape c) ih

theorem QuotedAll.read (h : QuotedAll cs spelled) (rest : List Char) :
    stringBody (spelled ++ '"' :: rest) = .ok cs rest := by
  induction h with
  | nil => simp [stringBody]
  | cons hc _ ih =>
    rw [List.append_assoc]
    exact hc.read ih

/-- An escape that the reader knows. -/
theorem quoted_of_escape {c escaped : Char}
    (h : (if escaped = 'n' then some '\n'
      else if escaped = 't' then some '\t'
      else if escaped = '"' ∨ escaped = '\\' then some escaped
      else none) = some c) : Quoted c ['\\', escaped] := by
  apply Quoted.escaped
  split at h
  · rename_i he
    cases h
    simp [he]
  split at h
  · rename_i he
    cases h
    simp [he]
  split at h
  · rename_i he
    cases h
    rcases he with rfl | rfl <;> simp
  · cases h

theorem quotedAll_of_read (h : stringBody text = .ok cs rest) :
    ∃ spelled, QuotedAll cs spelled ∧ text = spelled ++ '"' :: rest := by
  fun_induction stringBody text generalizing cs with
  | case1 => cases h
  | case2 =>
    cases h
    exact ⟨[], .nil, rfl⟩
  | case3 => cases h
  | case4 => cases h
  | case5 => cases h
  | case6 escaped after meant c cs final hbody hmeant =>
    rename_i ih
    cases h
    obtain ⟨spelled, hspelled, rfl⟩ := ih hbody
    exact ⟨_, .cons (quoted_of_escape hmeant) hspelled, rfl⟩
  | case7 escaped after meant hmeant hnone =>
    -- an escape without a meaning fails, and one with a meaning reads on as above
    cases hc : meant with
    | none => exact absurd hc hmeant
    | some c => exact absurd h (hnone c _ _ hc)
  | case8 c after hquote hline hlast hescape cs final hbody ih =>
    cases h
    obtain ⟨spelled, hspelled, rfl⟩ := ih hbody
    have hbackslash : c ≠ '\\' := by
      intro hc
      cases hafter : spelled ++ '"' :: rest with
      | nil => exact hlast hc hafter
      | cons d tail => exact hescape d tail hc hafter
    exact ⟨_, .cons (.plain hline hquote hbackslash) hspelled, rfl⟩
  | case9 c after _ _ _ _ hnone _ => exact absurd h (hnone _ _)

end Strings

section Literals

variable {value : Literal}

theorem Number.head {spelled : List Char} (h : Number value spelled) :
    ∃ c tail, spelled = c :: tail ∧ (c = '-' ∨ c.isDigit = true) := by
  have hminus : ∀ {negative : Bool} {digits tail : List Char}, Digits digits →
      ∃ c rest, minus negative ++ (digits ++ tail) = c :: rest ∧ (c = '-' ∨ c.isDigit = true) := by
    intro negative digits tail hdigits
    obtain ⟨d, ds, rfl⟩ := List.exists_cons_of_ne_nil hdigits.nonempty
    cases negative with
    | true => exact ⟨'-', _, rfl, Or.inl rfl⟩
    | false => exact ⟨d, _, rfl, Or.inr (hdigits.all d List.mem_cons_self)⟩
  cases h with
  | @integer _ negative digits hdigits _ =>
    have hread : ∃ c tail, minus negative ++ (digits ++ []) = c :: tail ∧
        (c = '-' ∨ c.isDigit = true) := hminus hdigits
    rwa [List.append_nil] at hread
  | float hwhole _ => exact hminus hwhole

theorem LiteralText.head (h : LiteralText value text rest) :
    ∃ c tail, text = c :: tail ∧ (c = '-' ∨ c = '"' ∨ Name.isWordChar c = true) := by
  cases h with
  | number hnumber =>
    obtain ⟨c, tail, rfl, hc⟩ := hnumber.head
    exact ⟨c, tail ++ rest, rfl, hc.imp id fun hdigit => Or.inr (isWordChar_of_isDigit hdigit)⟩
  | string _ => exact ⟨'"', _, rfl, Or.inr (Or.inl rfl)⟩
  | @word value word rest hword _ =>
    obtain ⟨c, tail, htext, hc⟩ := wordLiteral?_head (wordLiteral?_eq_some.mpr ⟨word, hword, rfl⟩)
    refine ⟨c, tail ++ rest, by rw [htext, List.cons_append], Or.inr (Or.inr ?_)⟩
    exact isWordChar_of_isWordStart hc

end Literals

end ProgramTree.Grammar
