import ProgramTree.Json
import ProgramTree.Proofs.Grammar.Scanning

/-! # The two written forms of JSON as one

The compact and the pretty form differ in their blanks only: those before each
item and before the closing bracket, and those after the colon of a field. So
there is one written form for each spacing, and the two are cases of it. -/

namespace ProgramTree

set_option autoImplicit false

namespace Json

/-- The blanks of a written form. -/
structure Spacing where
  /-- Before an item or a closing bracket of a level. -/
  gap : Nat → List Char
  colon : List Char
  gap_blank : ∀ level, ∀ c ∈ gap level, c = '\n' ∨ c = ' '
  colon_blank : ∀ c ∈ colon, c = ' '

namespace Spacing

def flat : Spacing :=
  ⟨fun _ => [], [], nofun, nofun⟩

def indented : Spacing where
  gap level := '\n' :: List.replicate (2 * level) ' '
  colon := [' ']
  gap_blank level c hc := by
    rcases List.mem_cons.mp hc with rfl | hc
    · exact Or.inl rfl
    · exact Or.inr (List.eq_of_mem_replicate hc)
  colon_blank c hc := List.mem_singleton.mp hc

/-- Items between brackets of a level. Where there are no items there are no blanks either. -/
def enclosed (spacing : Spacing) (opening closing : Char) (level : Nat) :
    List (List Char) → List Char
  | [] => [opening, closing]
  | first :: others =>
    opening :: (spacing.gap (level + 1) ++ (first ++
      (others.flatMap (fun item => ',' :: (spacing.gap (level + 1) ++ item)) ++
        (spacing.gap level ++ [closing]))))

end Spacing

section Written

variable (spacing : Spacing)

/-- A string between quotes. -/
def quoted (s : String) : List Char :=
  '"' :: (s.toList.flatMap escape ++ ['"'])

mutual

/-- The text of a value that stands at a level. -/
def written (level : Nat) : Json → List Char
  | null => "null".toList
  | bool value => if value then "true".toList else "false".toList
  | int value => (integerText value).toList
  | float value => (floatText value).toList
  | string value => quoted value
  | array items => spacing.enclosed '[' ']' level (writtenItems (level + 1) items)
  | object fields => spacing.enclosed '\x7b' '\x7d' level (writtenFields (level + 1) fields)

def writtenItems (level : Nat) : List Json → List (List Char)
  | [] => []
  | item :: rest => item.written level :: writtenItems level rest

def writtenFields (level : Nat) : List (String × Json) → List (List Char)
  | [] => []
  | (key, value) :: rest =>
    (quoted key ++ ':' :: (spacing.colon ++ value.written level)) :: writtenFields level rest

end

/-- The text of one field of an object. -/
def writtenField (level : Nat) (field : String × Json) : List Char :=
  quoted field.1 ++ ':' :: (spacing.colon ++ field.2.written spacing level)

theorem writtenItems_eq_map (level : Nat) (items : List Json) :
    writtenItems spacing level items = items.map (written spacing level) := by
  induction items with
  | nil => rfl
  | cons item items ih => rw [writtenItems, ih, List.map_cons]

theorem writtenFields_eq_map (level : Nat) (fields : List (String × Json)) :
    writtenFields spacing level fields = fields.map (writtenField spacing level) := by
  induction fields with
  | nil => rfl
  | cons field fields ih => rw [writtenFields, ih, List.map_cons, writtenField]

end Written

theorem toList_stringText (s : String) : (stringText s).toList = quoted s := by
  simp [stringText, quoted]

/-- Brackets around items that are set apart by commas. -/
theorem toList_flat (opening closing : Char) (level : Nat) (items : List String) :
    (String.singleton opening ++ ",".intercalate items ++ String.singleton closing).toList =
      Spacing.flat.enclosed opening closing level (items.map String.toList) := by
  rw [String.toList_append, String.toList_append, String.toList_singleton,
    String.toList_singleton]
  cases items with
  | nil => simp [Spacing.enclosed]
  | cons first others =>
    rw [toList_intercalate_cons]
    simp [Spacing.enclosed, Spacing.flat, List.flatMap_map]

theorem toList_bracketed (opening closing : Char) (level : Nat) (items : List String) :
    (bracketed (.singleton opening) (.singleton closing) level items).toList =
      Spacing.indented.enclosed opening closing level (items.map String.toList) := by
  cases items with
  | nil => simp [bracketed, Spacing.enclosed]
  | cons first others =>
    have hdeeper : List.replicate (2 * level) ' ' ++ List.replicate 2 ' ' =
        List.replicate (2 * (level + 1)) ' ' :=
      List.replicate_append_replicate
    rw [bracketed, if_neg (by simp)]
    simp only [List.map_cons, String.toList_append, toList_intercalate_cons]
    simp [Spacing.enclosed, Spacing.indented, List.flatMap_map, ← hdeeper]

mutual

theorem toList_compact (level : Nat) (j : Json) : j.compact.toList = written .flat level j := by
  cases j with
  | null => rfl
  | bool value => cases value <;> rfl
  | int | float => rfl
  | string value => exact toList_stringText value
  | array items =>
    rw [compact, written, ← toList_compactItems]
    exact toList_flat '[' ']' level _
  | object fields =>
    rw [compact, written, ← toList_compactFields]
    exact toList_flat '\x7b' '\x7d' level _

theorem toList_compactItems (level : Nat) (items : List Json) :
    (compactItems items).map String.toList = writtenItems .flat level items := by
  cases items with
  | nil => rfl
  | cons item items =>
    rw [compactItems, List.map_cons, toList_compact level item, toList_compactItems level items,
      writtenItems]

theorem toList_compactFields (level : Nat) (fields : List (String × Json)) :
    (compactFields fields).map String.toList = writtenFields .flat level fields := by
  cases fields with
  | nil => rfl
  | cons field fields =>
    obtain ⟨key, value⟩ := field
    rw [compactFields, List.map_cons, toList_compactFields level fields, writtenFields,
      String.toList_append, String.toList_append, toList_stringText, toList_compact level value]
    simp [Spacing.flat]

end

mutual

theorem toList_prettyAt (level : Nat) (j : Json) :
    (j.prettyAt level).toList = written .indented level j := by
  cases j with
  | null => rfl
  | bool value => cases value <;> rfl
  | int | float => rfl
  | string value => exact toList_stringText value
  | array items =>
    rw [prettyAt, written, ← toList_prettyItems]
    exact toList_bracketed '[' ']' level _
  | object fields =>
    rw [prettyAt, written, ← toList_prettyFields]
    exact toList_bracketed '\x7b' '\x7d' level _

theorem toList_prettyItems (level : Nat) (items : List Json) :
    (prettyItems level items).map String.toList = writtenItems .indented level items := by
  cases items with
  | nil => rfl
  | cons item items =>
    rw [prettyItems, List.map_cons, toList_prettyAt level item, toList_prettyItems level items,
      writtenItems]

theorem toList_prettyFields (level : Nat) (fields : List (String × Json)) :
    (prettyFields level fields).map String.toList = writtenFields .indented level fields := by
  cases fields with
  | nil => rfl
  | cons field fields =>
    obtain ⟨key, value⟩ := field
    rw [prettyFields, List.map_cons, toList_prettyFields level fields, writtenFields,
      String.toList_append, String.toList_append, toList_stringText, toList_prettyAt level value]
    simp [Spacing.indented]

end

end Json
end ProgramTree
