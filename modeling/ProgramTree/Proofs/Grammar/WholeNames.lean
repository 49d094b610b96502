import ProgramTree.Proofs.Expression.Parsed
import ProgramTree.Proofs.Grammar.ProgramSound

/-! # Names as whole texts

A reader takes a name off the front of a text, while the test of a name is about
a whole text. The readers go for the longest word and look at it, or at what
follows it, and the tests look at the first character, at all of them, and at
the place of a colon or of brackets. They agree: what a reader takes as the
whole of a text is what passes the test, be it an identifier, a qualified name
or the name of a type. -/

namespace ProgramTree

set_option autoImplicit false

open Reader Grammar

/-- The reader takes the whole of a text just if the text passes the test, and gives it back. -/
def Reader.TakesWhole (reader : Reader (List Char)) (isName : List Char → Bool) : Prop :=
  ∀ text name, reader text = .ok name [] ↔ name = text ∧ isName text = true

section Brackets

/-- Of a reversed text all pairs of brackets at the front are taken off. -/
theorem dropReversedBrackets_append (n : Nat) {reversed : List Char}
    (h : reversed.head? ≠ some ']') :
    Name.dropReversedBrackets ((brackets n).reverse ++ reversed) = reversed := by
  induction n with
  | zero =>
    show Name.dropReversedBrackets reversed = reversed
    unfold Name.dropReversedBrackets
    split
    · exact absurd rfl h
    · rfl
  | succ n ih =>
    rw [← brackets_append, List.reverse_append]
    exact ih

theorem bracket_not_mem_of_isIdentifier {w : List Char} (h : Name.isIdentifier w = true) :
    ']' ∉ w := by
  intro hmem
  have hword := isWordChar_of_isIdentifier h ']' hmem
  revert hword
  decide

theorem bracket_not_mem_of_isQualified {w : List Char} (h : Name.isQualified w = true) :
    ']' ∉ w := by
  rcases isQualified_cases h with hid | ⟨first, second, rfl, hfirst, hsecond⟩
  · exact bracket_not_mem_of_isIdentifier hid
  · intro hmem
    rcases List.mem_append.mp hmem with hmem | hmem
    · exact bracket_not_mem_of_isIdentifier hfirst hmem
    · apply bracket_not_mem_of_isIdentifier hsecond
      exact (List.mem_cons.mp hmem).resolve_left (by decide)

/-- The name of a type is a qualified name with pairs of brackets behind it. -/
theorem isTypeName_append {base : List Char} (h : Name.isQualified base = true) (n : Nat) :
    Name.isTypeName (base ++ brackets n) = true := by
  have hhead : base.reverse.head? ≠ some ']' := by
    intro hhead
    exact bracket_not_mem_of_isQualified h (List.mem_reverse.mp (List.mem_of_head? hhead))
  rw [Name.isTypeName, List.reverse_append, dropReversedBrackets_append n hhead,
    List.reverse_reverse]
  exact h

end Brackets

section Read

variable {name text rest : List Char}

theorem Grammar.TypeName.text_eq (h : TypeName name text rest) : text = name ++ rest := by
  obtain ⟨n, hbase⟩ := h
  rw [hbase.text_eq, List.append_assoc]

theorem Grammar.TypeName.isTypeName (h : TypeName name text rest) :
    Name.isTypeName name = true := by
  obtain ⟨n, hbase⟩ := h
  exact isTypeName_append hbase.isQualified n

end Read

section Whole

/-- A reader takes whole texts by a test if what it reads is in front and passes the test, and it
reads back what passes the test. -/
theorem takesWhole_of_read {reader : Reader (List Char)} {isName : List Char → Bool}
    (hread : ∀ text name, reader text = .ok name [] → text = name ++ [] ∧ isName name = true)
    (hrun : ∀ name, isName name = true → reader (name ++ []) = .ok name []) :
    reader.TakesWhole isName := by
  intro text name
  constructor
  · intro h
    obtain ⟨htext, hname⟩ := hread text name h
    rw [List.append_nil] at htext
    exact ⟨htext.symm, htext ▸ hname⟩
  · rintro ⟨rfl, hname⟩
    have h := hrun name hname
    rwa [List.append_nil] at h

theorem identifier_takesWhole : identifier.TakesWhole Name.isIdentifier := by
  apply takesWhole_of_read
  · intro text name h
    have hname := identifier_eq_ok.mp h
    exact ⟨hname.text_eq, hname.isIdentifier⟩
  · exact fun name h => identifier_run startsNot_nil h

theorem qualified_takesWhole : qualified.TakesWhole Name.isQualified := by
  apply takesWhole_of_read
  · intro text name h
    have hname := qualified_of_read h
    exact ⟨hname.text_eq, hname.isQualified⟩
  · exact fun name h => qualified_run startsNot_nil nofun h

theorem typeName_takesWhole : typeName.TakesWhole Name.isTypeName := by
  apply takesWhole_of_read
  · intro text name h
    have hname := typeName_of_read h
    exact ⟨hname.text_eq, hname.isTypeName⟩
  · exact fun name h => typeName_run h ⟨startsNot_nil, nofun, nofun⟩

end Whole

end ProgramTree
