import ProgramTree.Lint
import ProgramTree.Toml.Syntax

/-! # Settings

Settings come from a TOML text and may be overridden by flags. A text with a
key that is not a setting, or with a value of another type, is refused as a
whole. Where a table is expected an array gives its values by position. -/

namespace ProgramTree

set_option autoImplicit false

structure OutlineSettings where
  collapse : List NodeKind
  deriving DecidableEq, Repr

structure Settings where
  lint : LintSettings
  outline : OutlineSettings
  deriving DecidableEq, Repr

/-- What the flags of a command say. -/
structure Overrides where
  maxDepth : Option Nat
  disabled : List Rule
  collapse : List NodeKind

/-- Why settings are refused. -/
inductive SettingsFault
  | unreadable (message : String)
  | rejected
  | zeroDepth
  deriving DecidableEq, Repr

def SettingsFault.message : SettingsFault → String
  | unreadable message => message
  | rejected => "not a table of settings"
  | zeroDepth => "lint.max_depth must be at least 1"

namespace Toml

/-- The values of a table or an array under the names of its fields. Fields that are left out
have none. -/
def fields? (names : List String) : Toml → Option Entries
  | table _ entries => if entries.all fun (key, _) => names.contains key then some entries else none
  | array items => some (names.zip items)
  | tables items => some (names.zip (items.map (table .header)))
  | _ => none

/-- Reads a field, or takes what stands for a field that is left out. -/
def field? {α : Type} (entries : Entries) (name : String) (absent : α) (read : Toml → Option α) :
    Option α :=
  match entries.lookup name with
  | some value => read value
  | none => some absent

def natural? : Toml → Option Nat
  | integer value => if 0 ≤ value then some value.toNat else none
  | _ => none

def isEmptyList : Toml → Bool
  | array [] | table _ [] | tables [] => true
  | _ => false

/-- A name, given as a string or as the only key of a table, with nothing under it. -/
def name? : Toml → Option String
  | string text => some text
  | table _ [(key, value)] => if value.isEmptyList then some key else none
  | _ => none

def names? {α : Type} (ofName? : String → Option α) : Toml → Option (List α)
  | array items => items.mapM fun item => (name? item).bind ofName?
  | tables items => items.mapM fun item => (name? (table .header item)).bind ofName?
  | _ => none

end Toml

namespace LintSettings

def default : LintSettings :=
  ⟨5, []⟩

def ofToml? (value : Toml) : Option LintSettings := do
  let entries ← value.fields? ["max_depth", "disabled"]
  return {
    maxDepth := ← Toml.field? entries "max_depth" default.maxDepth Toml.natural?
    disabled := ← Toml.field? entries "disabled" [] (Toml.names? Rule.ofName?) }

end LintSettings

def OutlineSettings.ofToml? (value : Toml) : Option OutlineSettings := do
  let entries ← value.fields? ["collapse"]
  return { collapse := ← Toml.field? entries "collapse" [] (Toml.names? NodeKind.ofName?) }

/-- Adds the items that a list does not hold yet, each once and in their order. -/
def addNew {α : Type} [DecidableEq α] (present : List α) (items : List α) : List α :=
  items.foldl (fun present item => if item ∈ present then present else present ++ [item]) present

namespace Settings

def default : Settings :=
  ⟨.default, ⟨[]⟩⟩

def ofToml? (entries : Toml.Entries) : Option Settings := do
  let entries ← (Toml.table .header entries).fields? ["lint", "outline"]
  return {
    lint := ← Toml.field? entries "lint" .default LintSettings.ofToml?
    outline := ← Toml.field? entries "outline" ⟨[]⟩ OutlineSettings.ofToml? }

/-- The settings that a text spells. -/
def ofText (text : String) : Except SettingsFault Settings :=
  match (Toml.ofText? text).bind ofToml? with
  | none => .error .rejected
  | some settings => if settings.lint.maxDepth = 0 then .error .zeroDepth else .ok settings

/-- The settings under the given flags; none if the flags set the depth to zero. -/
def override? (s : Settings) (o : Overrides) : Option Settings :=
  let maxDepth := o.maxDepth.getD s.lint.maxDepth
  if o.maxDepth = some 0 then none
  else some {
    lint := ⟨maxDepth, addNew s.lint.disabled o.disabled⟩
    outline := ⟨addNew s.outline.collapse o.collapse⟩ }

end Settings
end ProgramTree
