import ProgramTree.Proofs.Grammar.Derivation

/-! # Steps of the expression reader

What each layer of the reader does once it is known what the layer below does,
and where it fails softly. An expression begins with one of few characters, and
the reader fails softly on every text that begins with another one. -/

namespace ProgramTree.Reader

set_option autoImplicit false

section Repetition

variable {α : Type} {item : Reader α} {text rest final : List Char} {a : α} {as : List α}

theorem many_of_soft {failure : Failure} (h : item text = .soft failure) :
    many item text = .ok [] text := by
  rw [many, h]

theorem many_of_ok (h : item text = .ok a rest) (hlength : rest.length < text.length)
    (hmany : many item rest = .ok as final) : many item text = .ok (a :: as) final := by
  rw [many, h]
  simp only [if_pos hlength, hmany]

theorem optional_of_ok (h : item text = .ok a rest) : optional item text = .ok (some a) rest := by
  rw [optional, h]

theorem optional_of_soft {failure : Failure} (h : item text = .soft failure) :
    optional item text = .ok none text := by
  rw [optional, h]

end Repetition

/-- The characters that an expression can begin with. -/
def startsExpression (c : Char) : Bool :=
  c == '!' || c == '-' || c == '(' || c == '"' || Name.isWordChar c

section Heads

variable {text rest : List Char}

theorem number?_eq_none (h : StartsNot Char.isDigit text) (hminus : text.head? ≠ some '-') :
    number? text = none := by
  unfold number?
  split
  rename_i negative body hsign
  split at hsign
  · exact absurd rfl hminus
  · cases hsign
    rw [takeWhile_of_startsNot h]

theorem number?_minus_eq_none (h : StartsNot Char.isDigit text) : number? ('-' :: text) = none := by
  unfold number?
  simp only [takeWhile_of_startsNot h]

theorem number?_head {value : Literal} (h : number? text = some (value, rest)) :
    ∃ c tail, text = c :: tail ∧ (c = '-' ∨ c.isDigit = true) := by
  obtain ⟨spelled, hspelled, rfl⟩ := Grammar.number_of_read h
  obtain ⟨c, tail, rfl, hc⟩ := hspelled.head
  exact ⟨c, tail ++ rest, rfl, hc⟩

theorem word_eq_nil (h : StartsNot Name.isWordChar text) : word text = [] :=
  takeWhile_of_startsNot h

/-- A word that means something begins with its first character. -/
theorem exists_of_word {c : Char} {tail : List Char} (h : word text = c :: tail) :
    ∃ rest, text = c :: rest ∧ Name.isWordChar c = true := by
  cases text with
  | nil => cases h
  | cons d rest =>
    rw [word, List.takeWhile_cons] at h
    split at h
    · rename_i hd
      cases h
      exact ⟨rest, rfl, hd⟩
    · cases h

theorem identifier_head {name : List Char} (h : identifier text = .ok name rest) :
    ∃ c tail, text = c :: tail ∧ Name.isWordStart c = true :=
  (Grammar.identifier_eq_ok.mp h).head

theorem identifier_soft (h : StartsNot Name.isWordChar text) :
    identifier text = unexpected text := by
  rw [identifier, word_eq_nil h]
  rfl

theorem qualified_head {name : List Char} (h : qualified text = .ok name rest) :
    ∃ c tail, text = c :: tail ∧ Name.isWordStart c = true :=
  (Grammar.qualified_of_read h).head

end Heads

section Pieces

variable (inner : Reader Expression) {text rest : List Char}

theorem callOrName_soft (h : StartsNot Name.isWordChar text) :
    ∃ failure, callOrName inner text = .soft failure := by
  refine ⟨⟨.unexpected, text⟩, ?_⟩
  simp only [callOrName, orElse, call, qualified, bind_apply, andThen, identifier_soft h,
    unexpected]

theorem primary_number {value : Literal} (h : number? text = some (value, rest)) :
    primary inner text = .ok (.literal value) rest := by
  obtain ⟨c, tail, rfl, hc⟩ := number?_head h
  unfold primary
  split
  · rename_i heq
    cases heq
    exact absurd hc (by decide)
  · rename_i heq
    cases heq
    exact absurd hc (by decide)
  · rw [h]

theorem primary_soft (h : StartsNot Name.isWordChar text) (hparenthesis : text.head? ≠ some '(')
    (hquote : text.head? ≠ some '"') (hnumber : number? text = none) :
    ∃ failure, primary inner text = .soft failure := by
  unfold primary
  split
  · exact absurd rfl hparenthesis
  · exact absurd rfl hquote
  · rw [hnumber, word_eq_nil h]
    exact callOrName_soft inner h

/-- A text that begins like a word is read as a literal, a call or a name. -/
theorem primary_word {c : Char} {tail : List Char} (hc : Name.isWordStart c = true) :
    primary inner (c :: tail) =
      match wordLiteral? (word (c :: tail)) with
      | some value => .ok (.literal value) (afterWord (c :: tail))
      | none => callOrName inner (c :: tail) := by
  have hnumber : number? (c :: tail) = none := by
    refine number?_eq_none (startsNot_cons.mpr (isDigit_of_isWordStart hc)) ?_
    rw [List.head?_cons]
    intro h
    cases h
    revert hc
    decide
  unfold primary
  split
  · rename_i heq
    cases heq
    exact absurd hc (by decide)
  · rename_i heq
    cases heq
    exact absurd hc (by decide)
  · rw [hnumber]
    split <;> simp_all

end Pieces

end ProgramTree.Reader
