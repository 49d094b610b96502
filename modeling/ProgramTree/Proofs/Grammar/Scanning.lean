import ProgramTree.Expression.Printer
import ProgramTree.Grammar.Expression

/-! # Reading tokens off a text

What the readers of single tokens do on a text that begins with the token. A
token that is a longest run ends where the text goes on with a character of
another class, or does not go on. -/

namespace ProgramTree

set_option autoImplicit false

/-- The text does not go on with a character of the class. -/
def StartsNot (test : Char → Bool) (text : List Char) : Prop :=
  text.head?.any test = false

section Runs

variable {test : Char → Bool} {run rest : List Char}

theorem startsNot_nil : StartsNot test [] := rfl

theorem startsNot_cons {c : Char} : StartsNot test (c :: rest) ↔ test c = false := Iff.rfl

theorem StartsNot.mono {test' : Char → Bool} (h : StartsNot test rest)
    (himp : ∀ c, test' c = true → test c = true) : StartsNot test' rest := by
  cases rest with
  | nil => rfl
  | cons c rest =>
    rw [startsNot_cons] at h ⊢
    cases hc : test' c with
    | false => rfl
    | true => rw [himp c hc] at h; cases h

theorem takeWhile_of_startsNot (h : StartsNot test rest) : rest.takeWhile test = [] := by
  cases rest with
  | nil => rfl
  | cons c rest => rw [List.takeWhile_cons, startsNot_cons.mp h]; rfl

theorem dropWhile_of_startsNot (h : StartsNot test rest) : rest.dropWhile test = rest := by
  cases rest with
  | nil => rfl
  | cons c rest => rw [List.dropWhile_cons, startsNot_cons.mp h]; rfl

variable (hrun : ∀ c ∈ run, test c = true) (hrest : StartsNot test rest)
include hrun hrest

theorem takeWhile_run : (run ++ rest).takeWhile test = run := by
  rw [List.takeWhile_append_of_pos hrun, takeWhile_of_startsNot hrest, List.append_nil]

theorem dropWhile_run : (run ++ rest).dropWhile test = rest := by
  rw [List.dropWhile_append_of_pos hrun, dropWhile_of_startsNot hrest]

end Runs

theorem startsNot_dropWhile (test : Char → Bool) (text : List Char) :
    StartsNot test (text.dropWhile test) := by
  induction text with
  | nil => rfl
  | cons c text ih =>
    rw [List.dropWhile_cons]
    split
    · exact ih
    · rename_i hc
      exact startsNot_cons.mpr (Bool.eq_false_iff.mpr hc)

/-- What is written between the items of a list, and before each one but the first. -/
theorem toList_intercalate_cons (separator first : String) (others : List String) :
    (separator.intercalate (first :: others)).toList =
      first.toList ++ others.flatMap fun s => separator.toList ++ s.toList := by
  induction others generalizing first with
  | nil => simp
  | cons second others ih =>
    rw [String.intercalate_cons_cons, String.toList_append, String.toList_append, ih]
    simp

namespace Reader

variable {text rest : List Char}

section Sequence

variable {α β : Type} {first : Reader α} {next : α → Reader β}

theorem bind_of_ok {a : α} (h : first text = .ok a rest) :
    (first >>= next) text = next a rest := by
  rw [bind_apply, andThen, h]

theorem bind_of_soft {failure : Failure} (h : first text = .soft failure) :
    (first >>= next) text = .soft failure := by
  rw [bind_apply, andThen, h]

/-- What a reader gives, turned into something else. -/
theorem bind_pure_apply (reader : Reader α) (f : α → β) (text : List Char) :
    (do return f (← reader) : Reader β) text = (reader text).map f := by
  rw [bind_apply, andThen]
  cases reader text <;> rfl

theorem bind_eq_ok {b : β} : (first >>= next) text = .ok b rest ↔
    ∃ a mid, first text = .ok a mid ∧ next a mid = .ok b rest := by
  rw [bind_apply, andThen]
  constructor
  · intro h
    split at h
    · rename_i a mid hfirst
      exact ⟨a, mid, hfirst, h⟩
    · cases h
    · cases h
  · rintro ⟨a, mid, hfirst, hnext⟩
    rw [hfirst]
    exact hnext

theorem committed_eq_ok {item : Reader α} {a : α} :
    committed item text = .ok a rest ↔ item text = .ok a rest := by
  unfold committed Outcome.committed
  split
  · rename_i failure hitem
    rw [hitem]
    constructor
    · intro h
      cases h
    · intro h
      cases h
  · exact Iff.rfl

theorem orElse_eq_ok {item other : Reader α} {a : α} (h : orElse item other text = .ok a rest) :
    item text = .ok a rest ∨ other text = .ok a rest := by
  unfold orElse at h
  split at h
  · exact Or.inr h
  · exact Or.inl h

theorem optional_eq_ok {item : Reader α} {found : Option α}
    (h : optional item text = .ok found rest) :
    (∃ a, found = some a ∧ item text = .ok a rest) ∨ found = none ∧ text = rest := by
  unfold optional at h
  split at h
  · rename_i a final hitem
    cases h
    exact Or.inl ⟨a, rfl, hitem⟩
  · cases h
    exact Or.inr ⟨rfl, rfl⟩
  · cases h

end Sequence

section Spaces

theorem skipSpaces_of_startsNot (h : StartsNot isSpace text) : skipSpaces text = text :=
  dropWhile_of_startsNot h

@[simp] theorem skipSpaces_nil : skipSpaces [] = [] := rfl

@[simp] theorem skipSpaces_space : skipSpaces (' ' :: text) = skipSpaces text := rfl

@[simp] theorem skipSpaces_newline : skipSpaces ('\n' :: text) = skipSpaces text := rfl

theorem startsNot_skipSpaces (text : List Char) : StartsNot isSpace (skipSpaces text) :=
  startsNot_dropWhile isSpace text

@[simp] theorem skipSpaces_skipSpaces (text : List Char) :
    skipSpaces (skipSpaces text) = skipSpaces text :=
  skipSpaces_of_startsNot (startsNot_skipSpaces text)

theorem skipSpaces_blanks {blanks : List Char} (h : ∀ c ∈ blanks, isSpace c = true) :
    skipSpaces (blanks ++ text) = skipSpaces text :=
  List.dropWhile_append_of_pos h

theorem symbolOr_of_eq {complaint : Complaint} {c : Char} (h : skipSpaces text = c :: rest) :
    symbolOr complaint c text = .ok () rest := by
  simp [symbolOr, h]

theorem symbolOr_of_ne (complaint : Complaint) {c : Char}
    (h : (skipSpaces text).head? ≠ some c) :
    ∃ failure, symbolOr complaint c text = .soft failure := by
  unfold symbolOr
  split
  · exact ⟨_, rfl⟩
  · rename_i d tail hskip
    rw [hskip, List.head?_cons] at h
    rw [if_neg fun hd => h (congrArg some hd)]
    exact ⟨_, rfl⟩

end Spaces

section Words

variable {w : List Char}

theorem isWordChar_of_isWordStart {c : Char} (h : Name.isWordStart c = true) :
    Name.isWordChar c = true := by
  simp only [Name.isWordStart, Bool.or_eq_true, beq_iff_eq] at h
  rcases h with h | rfl
  · simp [Name.isWordChar, Char.isAlphanum, h]
  · decide

/-- The upper case letters come first among the characters that start a word. -/
theorem le_toNat_of_isWordStart {c : Char} (h : Name.isWordStart c = true) : 65 ≤ c.toNat := by
  obtain hletter | hunderscore := (Bool.or_eq_true _ _).mp h
  · obtain hupper | hlower := (Bool.or_eq_true _ _).mp hletter
    · exact UInt32.le_iff_toNat_le.mp (of_decide_eq_true hupper).1
    · have hle : 97 ≤ c.toNat :=
        UInt32.le_iff_toNat_le.mp (of_decide_eq_true ((Bool.and_eq_true _ _).mp hlower).1)
      omega
  · rw [beq_iff_eq.mp hunderscore]
    decide

theorem isDigit_of_isWordStart {c : Char} (h : Name.isWordStart c = true) :
    c.isDigit = false := by
  have hstart := le_toNat_of_isWordStart h
  rw [Bool.eq_false_iff, ne_eq, Char.isDigit_iff_toNat]
  rintro ⟨-, hle⟩
  have hdigit : c.toNat ≤ 57 := hle
  omega

theorem isWordStart_eq {c : Char} (h : Name.isWordChar c = true) :
    Name.isWordStart c = !c.isDigit := by
  cases hdigit : c.isDigit with
  | true =>
    cases hstart : Name.isWordStart c with
    | false => rfl
    | true => rw [isDigit_of_isWordStart hstart] at hdigit; cases hdigit
  | false =>
    simp only [Name.isWordChar, Char.isAlphanum, hdigit, Bool.or_false] at h
    exact h

theorem isWordChar_of_isIdentifier (h : Name.isIdentifier w = true) :
    ∀ c ∈ w, Name.isWordChar c = true := by
  unfold Name.isIdentifier at h
  simp only [Bool.and_eq_true, List.all_eq_true] at h
  exact h.1.2

theorem exists_of_isIdentifier (h : Name.isIdentifier w = true) :
    ∃ c tail, w = c :: tail ∧ Name.isWordStart c = true ∧ Name.isKeyword w = false := by
  unfold Name.isIdentifier at h
  simp only [Bool.and_eq_true, Bool.not_eq_true'] at h
  cases w with
  | nil => simp at h
  | cons c tail => exact ⟨c, tail, rfl, by simpa using h.1.1, h.2⟩

/-- A word is an identifier unless it is empty, begins with a digit or is reserved. -/
theorem isIdentifier_of_word (hw : ∀ c ∈ w, Name.isWordChar c = true) :
    Name.isIdentifier w = !(w.isEmpty || w.head?.any Char.isDigit || Name.isKeyword w) := by
  rw [Name.isIdentifier, List.all_eq_true.mpr hw]
  cases w with
  | nil => rfl
  | cons c tail => simp [isWordStart_eq (hw c List.mem_cons_self)]

theorem identifier_eq (text : List Char) : identifier text =
    if Name.isIdentifier (word text) then .ok (word text) (afterWord text)
    else unexpected text := by
  have hword : ∀ c ∈ word text, Name.isWordChar c = true := List.all_eq_true.mp List.all_takeWhile
  rw [isIdentifier_of_word hword, identifier]
  cases (word text).isEmpty || (word text).head?.any Char.isDigit || Name.isKeyword (word text) <;>
    rfl

variable (hrest : StartsNot Name.isWordChar rest)
include hrest

theorem word_run (hw : ∀ c ∈ w, Name.isWordChar c = true) :
    word (w ++ rest) = w ∧ afterWord (w ++ rest) = rest :=
  ⟨takeWhile_run hw hrest, dropWhile_run hw hrest⟩

theorem keyword_run {expected : String}
    (hw : ∀ c ∈ expected.toList, Name.isWordChar c = true) :
    keyword expected (expected.toList ++ rest) = .ok () rest := by
  obtain ⟨hword, hafter⟩ := word_run hrest hw
  simp [keyword, hword, hafter]

theorem identifier_run (hw : Name.isIdentifier w = true) :
    identifier (w ++ rest) = .ok w rest := by
  obtain ⟨hword, hafter⟩ := word_run hrest (isWordChar_of_isIdentifier hw)
  simp [identifier_eq, hword, hafter, hw]

end Words

section Qualified

theorem isWordChar_colon : Name.isWordChar ':' = false := by decide

/-- A qualified name is an identifier, or two of them around a colon. -/
theorem isQualified_cases {w : List Char} (h : Name.isQualified w = true) :
    Name.isIdentifier w = true ∨
      ∃ first second, w = first ++ ':' :: second ∧ Name.isIdentifier first = true ∧
        Name.isIdentifier second = true := by
  unfold Name.isQualified at h
  split at h
  · exact Or.inl h
  · rename_i c localName hdrop
    simp only [Bool.and_eq_true] at h
    refine Or.inr ⟨w.takeWhile (· != ':'), localName, ?_, h.1, h.2⟩
    have hcolon := startsNot_dropWhile (· != ':') w
    rw [hdrop, startsNot_cons] at hcolon
    have hc : c = ':' := by simpa using hcolon
    calc w = w.takeWhile (· != ':') ++ w.dropWhile (· != ':') :=
          List.takeWhile_append_dropWhile.symm
      _ = w.takeWhile (· != ':') ++ ':' :: localName := by rw [hdrop, hc]

variable {w : List Char} (hword : StartsNot Name.isWordChar rest) (hcolon : rest.head? ≠ some ':')
include hword hcolon

theorem qualified_run_identifier (hw : Name.isIdentifier w = true) :
    qualified (w ++ rest) = .ok w rest := by
  have hqualifier : qualifier rest = unexpected rest := by
    unfold qualifier
    split
    · simp at hcolon
    · rfl
  simp only [qualified, bind_apply, andThen, identifier_run hword hw, optional, hqualifier,
    unexpected, Option.getD_none, List.append_nil]
  rfl

omit hcolon in
theorem qualified_run_pair {first second : List Char} (hfirst : Name.isIdentifier first = true)
    (hsecond : Name.isIdentifier second = true) :
    qualified (first ++ ':' :: (second ++ rest)) = .ok (first ++ ':' :: second) rest := by
  have hfirstRun : identifier (first ++ ':' :: (second ++ rest)) =
      .ok first (':' :: (second ++ rest)) :=
    identifier_run (startsNot_cons.mpr isWordChar_colon) hfirst
  simp only [qualified, bind_apply, andThen, hfirstRun, optional, qualifier,
    identifier_run hword hsecond]
  rfl

theorem qualified_run (hw : Name.isQualified w = true) : qualified (w ++ rest) = .ok w rest := by
  rcases isQualified_cases hw with hid | ⟨first, second, rfl, hfirst, hsecond⟩
  · exact qualified_run_identifier hword hcolon hid
  · rw [List.append_assoc]
    exact qualified_run_pair hword hfirst hsecond

end Qualified

section WordLiterals

variable {w : List Char} {value : Literal}

theorem wordLiteral?_eq_some : wordLiteral? w = some value ↔
    ∃ word, (value, word) ∈ [(.boolean true, "true"), (.boolean false, "false"),
      (Literal.null, "null")] ∧ w = word.toList := by
  unfold wordLiteral?
  constructor
  · intro h
    split at h
    · cases h
      exact ⟨"true", by simp, by assumption⟩
    split at h
    · cases h
      exact ⟨"false", by simp, by assumption⟩
    split at h
    · cases h
      exact ⟨"null", by simp, by assumption⟩
    · cases h
  · rintro ⟨word, hmem, rfl⟩
    simp only [List.mem_cons, Prod.mk.injEq, List.not_mem_nil, or_false] at hmem
    rcases hmem with ⟨rfl, rfl⟩ | ⟨rfl, rfl⟩ | ⟨rfl, rfl⟩ <;> rfl

theorem wordLiteral?_cases (h : wordLiteral? w = some value) :
    w = "true".toList ∨ w = "false".toList ∨ w = "null".toList := by
  obtain ⟨word, hmem, rfl⟩ := wordLiteral?_eq_some.mp h
  simp only [List.mem_cons, Prod.mk.injEq, List.not_mem_nil, or_false] at hmem
  rcases hmem with ⟨_, rfl⟩ | ⟨_, rfl⟩ | ⟨_, rfl⟩
  · exact Or.inl rfl
  · exact Or.inr (Or.inl rfl)
  · exact Or.inr (Or.inr rfl)

theorem wordLiteral?_all (h : wordLiteral? w = some value) :
    ∀ c ∈ w, Name.isWordChar c = true := by
  rcases wordLiteral?_cases h with rfl | rfl | rfl <;> exact List.all_eq_true.mp rfl

theorem wordLiteral?_head (h : wordLiteral? w = some value) :
    ∃ c tail, w = c :: tail ∧ Name.isWordStart c = true := by
  rcases wordLiteral?_cases h with rfl | rfl | rfl
  · exact ⟨'t', _, rfl, rfl⟩
  · exact ⟨'f', _, rfl, rfl⟩
  · exact ⟨'n', _, rfl, rfl⟩

theorem wordLiteral?_identifier (h : Name.isIdentifier w = true) : wordLiteral? w = none := by
  cases hvalue : wordLiteral? w with
  | none => rfl
  | some value =>
    rcases wordLiteral?_cases hvalue with rfl | rfl | rfl <;> exact absurd h (by decide)

end WordLiterals

end Reader
end ProgramTree
