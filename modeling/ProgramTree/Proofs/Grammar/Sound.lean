import ProgramTree.Proofs.Grammar.Accepted

/-! # What the reader accepts has a derivation

Layer by layer: if the reader of nested expressions gives only what has a
derivation, then so does each reader that is built from it. Nested expressions
are shorter than the text around them, so the induction is on the length of the
text.

Only the minus needs more than its own layer. It is read as a prefix where no
number can be read, and a text that begins with a digit is then no operand. -/

namespace ProgramTree.Grammar

set_option autoImplicit false

open Reader

/-- The reader gives only what derives from the text. -/
def Sound (category : Category) (reader : Reader category.Meaning) : Prop :=
  ∀ ⦃text : List Char⦄ ⦃a : category.Meaning⦄ ⦃rest : List Char⦄, reader text = .ok a rest →
    ∃ d : Derivation category text rest, d.value = a

section Repetition

variable {α : Type} {item : Reader α}

/-- What holds of no items, and of one more item before others, holds of all repetitions. -/
theorem many_induction {motive : List Char → List α → List Char → Prop}
    (nil : ∀ text, motive text [] text)
    (cons : ∀ {text a mid as rest}, item text = .ok a mid → motive mid as rest →
      motive text (a :: as) rest)
    {text rest : List Char} {as : List α} (h : many item text = .ok as rest) :
    motive text as rest := by
  fun_induction many item text generalizing as with
  | case1 text a mid hitem _ as final hmany ih =>
    cases h
    exact cons hitem (ih hmany)
  | case2 => cases h
  | case3 => cases h
  | case4 =>
    cases h
    exact nil _
  | case5 =>
    cases h
    exact nil _
  | case6 => cases h

theorem many_ne_soft {text : List Char} {failure : Failure} :
    many item text ≠ .soft failure := by
  intro h
  fun_induction many item text generalizing failure with
  | case1 => cases h
  | case2 _ _ _ _ _ _ hmany ih => exact ih hmany
  | case3 => cases h
  | case4 => cases h
  | case5 => cases h
  | case6 => cases h

end Repetition

variable {inner : Reader Expression} {text rest : List Char} {e : Expression}

section Pieces

/-- The ways in which a single piece is read. -/
theorem primary_eq_ok (h : primary inner text = .ok e rest) :
    (∃ after, text = '(' :: after ∧ Reader.parenthesized inner after = .ok e rest) ∨
    (∃ after cs, text = '"' :: after ∧ stringBody after = .ok cs rest ∧
      e = .literal (.string (String.ofList cs))) ∨
    (∃ value, number? text = some (value, rest) ∧ e = .literal value) ∨
    (∃ value, wordLiteral? (word text) = some value ∧ rest = afterWord text ∧
      e = .literal value) ∨
    callOrName inner text = .ok e rest := by
  unfold primary at h
  split at h
  · rename_i after
    exact Or.inl ⟨after, rfl, h⟩
  · rename_i after
    obtain ⟨cs, last, hbody, hreturn⟩ := bind_eq_ok.mp h
    cases hreturn
    exact Or.inr (Or.inl ⟨after, cs, rfl, hbody, rfl⟩)
  · split at h
    · rename_i value final hnumber
      cases h
      exact Or.inr (Or.inr (Or.inl ⟨value, hnumber, rfl⟩))
    · rename_i value _ hvalue
      cases h
      exact Or.inr (Or.inr (Or.inr (Or.inl ⟨value, hvalue, rfl, rfl⟩)))
    · exact Or.inr (Or.inr (Or.inr (Or.inr h)))

theorem closing_of_committed {c : Char} (h : committed (expect c) text = .ok () rest) :
    Symbol [c] text rest :=
  symbol_of_symbolOr (committed_eq_ok.mp h)

theorem sound_moreArguments (h : Sound (.expression 1) inner) :
    Sound .moreArguments (many (do comma; inner)) := by
  intro text es rest hmany
  apply many_induction (motive := fun text es rest =>
    ∃ d : Derivation .moreArguments text rest, d.value = es) _ _ hmany
  · intro text
    exact ⟨.noMore, rfl⟩
  · rintro text e mid es rest hitem ⟨others, rfl⟩
    obtain ⟨_, after, hcomma, hinner⟩ := bind_eq_ok.mp hitem
    obtain ⟨next, rfl⟩ := h hinner
    exact ⟨.more (symbol_of_symbolOr hcomma) next others, rfl⟩

theorem sound_arguments (h : Sound (.expression 1) inner) :
    Sound .arguments (separated comma inner) := by
  intro text es rest hread
  unfold separated at hread
  split at hread
  · rename_i e mid hfirst
    obtain ⟨others, last, hmany, hreturn⟩ := bind_eq_ok.mp hread
    cases hreturn
    obtain ⟨first, rfl⟩ := h hfirst
    obtain ⟨more, rfl⟩ := sound_moreArguments h hmany
    exact ⟨.arguments first more, rfl⟩
  · cases hread
    exact ⟨.noArguments, rfl⟩
  · cases hread

theorem sound_piece (h : Sound (.expression 1) inner) :
    Sound (.expression 9) (readAt inner 9) := by
  intro text e rest hread
  have hblanks := afterBlanks_skipSpaces text
  rcases primary_eq_ok hread with ⟨after, htext, hread⟩ | ⟨after, cs, htext, hbody, rfl⟩ |
    ⟨value, hnumber, rfl⟩ | ⟨value, hword, rfl, rfl⟩ | hread
  · obtain ⟨e', last, hinner, hread⟩ := bind_eq_ok.mp hread
    obtain ⟨_, last', hclosing, hreturn⟩ := bind_eq_ok.mp hread
    cases hreturn
    obtain ⟨d, rfl⟩ := h (committed_eq_ok.mp hinner)
    exact ⟨.parentheses (symbol_of_skipSpaces htext) d (closing_of_committed hclosing), rfl⟩
  · obtain ⟨spelled, hspelled, rfl⟩ := quotedAll_of_read hbody
    rw [htext] at hblanks
    exact ⟨.literal _ hblanks (.string hspelled), rfl⟩
  · obtain ⟨spelled, hspelled, htext⟩ := number_of_read hnumber
    rw [htext] at hblanks
    exact ⟨.literal _ hblanks (.number hspelled), rfl⟩
  · obtain ⟨w, hmem, hw⟩ := wordLiteral?_eq_some.mp hword
    have htext : skipSpaces text = w.toList ++ afterWord (skipSpaces text) := by
      rw [← hw]
      exact List.takeWhile_append_dropWhile.symm
    rw [htext] at hblanks
    exact ⟨.literal _ hblanks (.word hmem (startsNot_dropWhile _ _)), rfl⟩
  · rcases orElse_eq_ok hread with hcall | hname
    · obtain ⟨target, mid, htarget, hread⟩ := bind_eq_ok.mp hcall
      obtain ⟨_, after, hopening, hread⟩ := bind_eq_ok.mp hread
      obtain ⟨args, last, hargs, hread⟩ := bind_eq_ok.mp hread
      obtain ⟨_, last', hclosing, hreturn⟩ := bind_eq_ok.mp hread
      cases hreturn
      obtain ⟨d, rfl⟩ := sound_arguments h hargs
      exact ⟨.call target hblanks (qualified_of_read htarget) (symbol_of_symbolOr hopening) d
        (closing_of_committed hclosing), rfl⟩
    · obtain ⟨name, last, hidentifier, hreturn⟩ := bind_eq_ok.mp hname
      cases hreturn
      exact ⟨.name name hblanks (identifier_eq_ok.mp hidentifier), rfl⟩

end Pieces

section Suffixes

theorem sound_suffixes (h : Sound (.expression 1) inner) :
    Sound .suffixes (many (suffix inner)) := by
  intro text suffixes rest hmany
  apply many_induction (motive := fun text suffixes rest =>
    ∃ d : Derivation .suffixes text rest, d.value = suffixes) _ _ hmany
  · intro text
    exact ⟨.noSuffix, rfl⟩
  · rintro text one mid suffixes rest hitem ⟨others, rfl⟩
    rcases orElse_eq_ok hitem with hfield | hindex
    · obtain ⟨_, after, hpoint, hread⟩ := bind_eq_ok.mp hfield
      obtain ⟨name, last, hname, hreturn⟩ := bind_eq_ok.mp hread
      cases hreturn
      have hidentifier := identifier_eq_ok.mp (committed_eq_ok.mp hname)
      exact ⟨.field (symbol_of_symbolOr hpoint) name hidentifier others, rfl⟩
    · obtain ⟨_, after, hopening, hread⟩ := bind_eq_ok.mp hindex
      obtain ⟨position, last, hposition, hread⟩ := bind_eq_ok.mp hread
      obtain ⟨_, last', hclosing, hreturn⟩ := bind_eq_ok.mp hread
      cases hreturn
      obtain ⟨d, rfl⟩ := h (committed_eq_ok.mp hposition)
      exact ⟨.index (symbol_of_symbolOr hopening) d (closing_of_committed hclosing) others, rfl⟩

theorem sound_suffixed (h : Sound (.expression 1) inner) :
    Sound (.expression 8) (readAt inner 8) := by
  intro text e rest hread
  obtain ⟨target, mid, htarget, hread⟩ := bind_eq_ok.mp hread
  obtain ⟨suffixes, last, hsuffixes, hreturn⟩ := bind_eq_ok.mp hread
  cases hreturn
  obtain ⟨d, rfl⟩ := sound_piece h htarget
  obtain ⟨others, rfl⟩ := sound_suffixes h hsuffixes
  exact ⟨.suffixed d others, rfl⟩

end Suffixes

section Prefixes

variable {failure : Failure} {d : Char} {tail : List Char}

theorem primary_of_suffixed_soft {target : Expression} {mid : List Char}
    (h : suffixed inner text = .soft failure) : primary inner text ≠ .ok target mid := by
  intro hprimary
  rw [suffixed, bind_apply, andThen, hprimary] at h
  simp only [bind_apply (many _), andThen] at h
  split at h
  · cases h
  · rename_i hmany
    exact many_ne_soft hmany
  · cases h

/-- A minus directly before a number makes another number, which ends where the first one does. -/
theorem exists_number?_minus {value : Literal} (hd : d.isDigit = true)
    (h : number? (d :: tail) = some (value, rest)) :
    ∃ value', number? ('-' :: d :: tail) = some (value', rest) := by
  have hne : (d :: tail).takeWhile Char.isDigit ≠ [] := by
    rw [List.takeWhile_cons, if_pos hd]
    exact List.cons_ne_nil _ _
  have hdigits := digits_takeWhile hne
  have hends := startsNot_dropWhile Char.isDigit (d :: tail)
  have htext := List.takeWhile_append_dropWhile (p := Char.isDigit) (l := d :: tail)
  generalize (d :: tail).takeWhile Char.isDigit = digits at hdigits htext
  generalize (d :: tail).dropWhile Char.isDigit = after at hends htext
  rw [← htext] at h ⊢
  have hminus := number?_run hdigits.all hdigits.nonempty true hends
  have hplain := number?_run hdigits.all hdigits.nonempty false hends
  rw [minus, if_pos rfl, List.singleton_append] at hminus
  rw [minus, if_neg Bool.false_ne_true, List.nil_append, h] at hplain
  rw [hminus]
  cases hfloat : floatTail? after with
  | some found =>
    rw [hfloat] at hplain
    cases hplain
    exact ⟨_, rfl⟩
  | none =>
    rw [hfloat] at hplain
    obtain ⟨value, hvalue, heq⟩ := Option.map_eq_some_iff.mp hplain.symm
    cases heq
    have hrange : ∃ value', int64? (signedValue true digits) = some value' := by
      unfold int64? signedValue at hvalue ⊢
      simp only [if_true, Bool.false_eq_true, if_false, Option.ite_none_right_eq_some,
        exists_and_left] at hvalue ⊢
      exact ⟨by omega, _, rfl⟩
    obtain ⟨value', hvalue'⟩ := hrange
    exact ⟨_, by rw [hvalue', Option.map_some]⟩

/-- An integer that is too small with a minus is too large without one. -/
theorem number?_eq_none_of_minus (hd : d.isDigit = true)
    (h : number? ('-' :: d :: tail) = none) : number? (d :: tail) = none := by
  cases hnumber : number? (d :: tail) with
  | none => rfl
  | some found =>
    obtain ⟨value', hminus⟩ := exists_number?_minus hd hnumber
    rw [h] at hminus
    cases hminus

/-- Of the single pieces only a number begins with a digit. -/
theorem number?_of_primary (hd : d.isDigit = true) (h : primary inner (d :: tail) = .ok e rest) :
    number? (d :: tail) ≠ none := by
  have hstart : ∀ {c : Char} {rest : List Char}, d :: tail = c :: rest →
      Name.isWordStart c = true → False := by
    intro c rest heq hc
    cases heq
    rw [isDigit_of_isWordStart hc] at hd
    cases hd
  intro hnone
  rcases primary_eq_ok h with ⟨_, heq, _⟩ | ⟨_, _, heq, _⟩ | ⟨_, hnumber, _⟩ |
    ⟨_, hword, _⟩ | hread
  · cases heq
    exact absurd hd (by decide)
  · cases heq
    exact absurd hd (by decide)
  · rw [hnone] at hnumber
    cases hnumber
  · obtain ⟨c, tail', hw, hc⟩ := wordLiteral?_head hword
    obtain ⟨_, heq, _⟩ := exists_of_word hw
    exact hstart heq hc
  · rcases orElse_eq_ok hread with hcall | hname
    · obtain ⟨_, _, htarget, _⟩ := bind_eq_ok.mp hcall
      obtain ⟨_, _, heq, hc⟩ := qualified_head htarget
      exact hstart heq hc
    · obtain ⟨_, _, hidentifier, _⟩ := bind_eq_ok.mp hname
      obtain ⟨_, _, heq, hc⟩ := identifier_head hidentifier
      exact hstart heq hc

theorem number?_of_operand (hd : d.isDigit = true) (h : operand inner (d :: tail) = .ok e rest) :
    number? (d :: tail) ≠ none := by
  have hskip : skipSpaces (d :: tail) = d :: tail :=
    skipSpaces_of_startsNot (startsNot_cons.mpr (isSpace_of_isWordChar (isWordChar_of_isDigit hd)))
  rw [operand] at h
  split at h
  · rename_i heq
    rw [hskip] at heq
    cases heq
    exact absurd hd (by decide)
  · rename_i heq
    rw [hskip] at heq
    cases heq
    exact absurd hd (by decide)
  · rw [hskip] at h
    split at h
    · cases h
    · obtain ⟨target, mid, hprimary, _⟩ := bind_eq_ok.mp h
      exact number?_of_primary hd hprimary

/-- Where a minus is read as a prefix, no digit stands behind it. -/
theorem startsNot_digit_of_neg (h : suffixed inner ('-' :: text) = .soft failure)
    (hoperand : operand inner text = .ok e rest) : StartsNot Char.isDigit text := by
  cases text with
  | nil => rfl
  | cons d tail =>
    rw [startsNot_cons]
    cases hd : d.isDigit with
    | false => rfl
    | true =>
      have hnumber : number? ('-' :: d :: tail) = none := by
        cases hnumber : number? ('-' :: d :: tail) with
        | none => rfl
        | some found => exact absurd (primary_number inner hnumber) (primary_of_suffixed_soft h)
      exact absurd (number?_eq_none_of_minus hd hnumber) (number?_of_operand hd hoperand)

theorem map_committed_eq_ok {α β : Type} {f : α → β} {outcome : Outcome α} {b : β}
    (h : outcome.committed.map f = .ok b rest) : ∃ a, outcome = .ok a rest ∧ f a = b := by
  cases outcome with
  | ok a rest =>
    cases h
    exact ⟨a, rfl, rfl⟩
  | soft _ => cases h
  | hard _ => cases h

theorem sound_prefixed (h : Sound (.expression 1) inner) :
    Sound (.expression 7) (readAt inner 7) := by
  intro text e rest hread
  replace hread : operand inner text = .ok e rest := hread
  have hunprefixed : ∀ {text : List Char} {e : Expression},
      suffixed inner (skipSpaces text) = .ok e rest →
      ∃ d : Derivation (.expression 7) text rest, d.value = e := by
    intro text e hsuffixed
    obtain ⟨d, hd⟩ := sound_suffixed h hsuffixed
    exact ⟨.unprefixed d, hd⟩
  fun_induction operand inner text generalizing e with
  | case1 text after hskip _ ih =>
    obtain ⟨operand, hoperand, rfl⟩ := map_committed_eq_ok hread
    obtain ⟨d, rfl⟩ := ih hoperand
    exact ⟨.not (symbol_of_skipSpaces hskip) d, rfl⟩
  | case2 text after hskip _ failure hsoft ih =>
    obtain ⟨operand, hoperand, rfl⟩ := map_committed_eq_ok hread
    obtain ⟨d, rfl⟩ := ih hoperand
    have hapart := startsNot_digit_of_neg hsoft hoperand
    exact ⟨.neg (symbol_of_skipSpaces hskip) hapart d, rfl⟩
  | case3 text after hskip _ _ =>
    rw [← hskip] at hread
    exact hunprefixed hread
  | case4 => cases hread
  | case5 => exact hunprefixed hread

end Prefixes

section Operators

theorem symbol_of_operator {ops : List BinaryOp} {op : BinaryOp}
    (h : operator ops text = .ok op rest) : op ∈ ops ∧ Symbol op.symbol.toList text rest := by
  unfold operator at h
  simp only at h
  split at h
  · rename_i found hfound
    cases h
    have hbegins := List.find?_some hfound
    rw [List.isPrefixOf_iff_prefix] at hbegins
    obtain ⟨tail, htail⟩ := hbegins
    refine ⟨List.mem_of_find?_eq_some hfound, symbol_of_skipSpaces ?_⟩
    rw [← htail, ← String.length_toList, List.drop_left]
  · cases h

theorem sound_operations {level : Nat} (hlow : 1 ≤ level)
    (h : Sound (.expression (level + 1)) (readAt inner (level + 1))) :
    Sound (.operations level) (many (operation inner level)) := by
  intro text operations rest hmany
  apply many_induction (motive := fun text operations rest =>
    ∃ d : Derivation (.operations level) text rest, d.value = operations) _ _ hmany
  · intro text
    exact ⟨.noOperation, rfl⟩
  · rintro text one mid operations rest hitem ⟨others, rfl⟩
    obtain ⟨op, after, hop, hread⟩ := bind_eq_ok.mp hitem
    obtain ⟨rhs, last, hrhs, hreturn⟩ := bind_eq_ok.mp hread
    cases hreturn
    obtain ⟨hmem, hsymbol⟩ := symbol_of_operator hop
    obtain ⟨d, rfl⟩ := h (committed_eq_ok.mp hrhs)
    exact ⟨.operation op (precedence_of_mem_operatorsAt hmem hlow) hsymbol d others, rfl⟩

theorem sound_operators {level : Nat} (hlow : 1 ≤ level) (hhigh : level ≤ 6)
    (h : Sound (.expression (level + 1)) (readAt inner (level + 1))) :
    Sound (.expression level) (readAt inner level) := by
  intro text e rest hread
  rw [readAt_operators hlow hhigh] at hread
  obtain ⟨first, mid, hfirst, hread⟩ := bind_eq_ok.mp hread
  obtain ⟨others, last, hothers, hreturn⟩ := bind_eq_ok.mp hread
  cases hreturn
  obtain ⟨d, rfl⟩ := h hfirst
  obtain ⟨more, rfl⟩ := sound_operations hlow h hothers
  exact ⟨.operators hlow hhigh d more, rfl⟩

/-- Every level is sound, from the prefixes upwards. -/
theorem sound_readAt (h : Sound (.expression 1) inner) :
    Sound (.expression 1) (readAt inner 1) := by
  have hlevel : ∀ n level : Nat, level + n = 7 → 1 ≤ level →
      Sound (.expression level) (readAt inner level) := by
    intro n
    induction n with
    | zero =>
      rintro level rfl _
      exact sound_prefixed h
    | succ n ih =>
      intro level hlevel hlow
      apply sound_operators hlow (by omega)
      exact ih (level + 1) (by omega) (by omega)
  exact hlevel 6 1 rfl (Nat.le_refl 1)

end Operators

/-- What is read as an expression has a derivation. -/
theorem sound_expression : Sound (.expression 1) expression := by
  have hlength : ∀ n : Nat, ∀ {text rest : List Char} {e : Expression}, text.length = n →
      expression text = .ok e rest →
      ∃ d : Derivation (.expression 1) text rest, d.value = e := by
    intro n
    induction n using Nat.strong_induction_on with
    | _ n ih =>
      intro text rest e hn hread
      rw [expression_eq] at hread
      refine sound_readAt ?_ hread
      -- nested expressions are read off shorter texts only
      intro after e' last hinner
      unfold nested below at hinner
      split at hinner
      · rename_i hshorter
        exact ih after.length (by omega) rfl hinner
      · cases hinner
  intro text e rest hread
  exact hlength text.length rfl hread

end ProgramTree.Grammar
