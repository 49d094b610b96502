import Mathlib.Data.List.Duplicate
import ProgramTree.Proofs.Grammar.WholeNames
import ProgramTree.Proofs.Source.FirstFault

/-! # What can be wrong with a program that is read

A form from a text has all its expressions, and its names have passed as names
while they were read. So most checks of a form cannot fail any more. What can
be wrong is the name of the package, of which only the characters were looked
at, and what no name shows: a parameter declared twice, a target that cannot be
assigned to, a statement that is an expression but no call, and a float literal
that is too large. -/

namespace ProgramTree

set_option autoImplicit false

open Reader Grammar

section Duplicates

variable {seen : List String} {params : List Parameter}

/-- What is found is a name that was seen before, or that two of the parameters have. -/
theorem duplicate_of_findDuplicate {twice : String}
    (h : Form.findDuplicate seen params = some twice) :
    twice ∈ params.map Parameter.name ∧
      (twice ∈ seen ∨ List.Duplicate twice (params.map Parameter.name)) := by
  induction params generalizing seen with
  | nil => cases h
  | cons p params ih =>
    rw [Form.findDuplicate] at h
    split at h
    · rename_i hseen
      cases h
      exact ⟨List.mem_cons_self, Or.inl hseen⟩
    · obtain ⟨hmem, hagain⟩ := ih h
      refine ⟨List.mem_cons_of_mem _ hmem, ?_⟩
      rcases hagain with hagain | hagain
      · rcases List.mem_cons.mp hagain with rfl | hagain
        · exact Or.inr (.cons_mem hmem)
        · exact Or.inl hagain
      · exact Or.inr (.cons_duplicate hagain)

theorem nodup_of_findDuplicate (h : Form.findDuplicate seen params = none) :
    (params.map Parameter.name).Nodup ∧ ∀ name ∈ params.map Parameter.name, name ∉ seen := by
  induction params generalizing seen with
  | nil => exact ⟨.nil, List.forall_mem_nil _⟩
  | cons p params ih =>
    rw [Form.findDuplicate] at h
    split at h
    · cases h
    · rename_i hfresh
      obtain ⟨hnodup, hout⟩ := ih h
      refine ⟨List.nodup_cons.mpr ⟨fun hmem => ?_, hnodup⟩, List.forall_mem_cons.mpr ⟨hfresh, ?_⟩⟩
      · exact hout p.name hmem List.mem_cons_self
      · exact fun name hmem hseen => hout name hmem (List.mem_cons_of_mem p.name hseen)

end Duplicates

namespace Form

/-- The expressions of a form, each with the name of its field. -/
def expressions : Form → List (String × Expression)
  | ifStatement condition | elseIfClause condition | whileLoop condition =>
    condition.toList.map ("condition", ·)
  | assignment target value => target.toList.map ("target", ·) ++ value.toList.map ("value", ·)
  | variableDefinition _ _ initializer => initializer.toList.map ("initializer", ·)
  | callStatement expression => expression.toList.map ("expression", ·)
  | returnStatement values => values.map ("values", ·)
  | replyStatement value | throwStatement value => value.toList.map ("value", ·)
  | _ => []

/-- What can be wrong with a form from a text. -/
inductive Cause : Form → MalformedNode → Prop
  | package {name : String} : Name.isPackageName name.toList = false →
      Cause (.compilationUnit (some name))
        (.invalidIdentifier .compilationUnit "package" name)
  | parameter {name twice : String} {params : List (String × String)} {returns : List String} :
      List.Duplicate twice (params.map Prod.snd) →
      Cause (.function name params returns)
        (.invalidField .function "params" (.duplicateParameter twice))
  | target {target value : Expression} : target.isAssignable = false →
      Cause (.assignment (some target) (some value))
        (.invalidField .assignment "target" (.notAssignable target))
  | call {e : Expression} : e.isCall = false →
      Cause (.callStatement (some e)) (.invalidField .callStatement "expression" (.notCall e))
  | float {form : Form} {field : String} {e : Expression} {negative : Bool} :
      (field, e) ∈ form.expressions → .infinity negative ∈ e.floats →
      Cause form (.invalidField form.kind field (.nonFiniteFloat (.infinity negative)))

/-- Nothing is left out, all names but that of the package are well formed, and a comment has one
line. -/
def WellFilled : Form → Prop
  | function name params returns =>
    (∀ p ∈ params, Name.isTypeName p.1.toList = true ∧ Name.isIdentifier p.2.toList = true) ∧
      Name.isIdentifier name.toList = true ∧ ∀ type ∈ returns, Name.isTypeName type.toList = true
  | ifStatement e | elseIfClause e | whileLoop e | callStatement e | replyStatement e
  | throwStatement e => ∃ e', e = some e' ∧ e'.WellNamed
  | assignment target value =>
    ∃ target' value', target = some target' ∧ value = some value' ∧ target'.WellNamed ∧
      value'.WellNamed
  | variableDefinition typeName name initializer =>
    Name.isTypeName typeName.toList = true ∧ Name.isIdentifier name.toList = true ∧
      ∀ e ∈ initializer, e.WellNamed
  | returnStatement values => Expression.AllWellNamed values
  | catchClause typeName name =>
    Name.isTypeName typeName.toList = true ∧ Name.isIdentifier name.toList = true
  | comment text => ∀ c ∈ text.toList, c ≠ '\n' ∧ c ≠ '\r'
  | compilationUnit _ | block | elseClause | breakStatement | continueStatement
  | tryStatement => True

section Causes

variable {form : Form} {fault : MalformedNode}

theorem require_eq_error {kind : NodeKind} {field : String} {e : Expression} (h : e.WellNamed)
    (hfault : require kind field (some e) = .error fault) : ∃ negative,
      .infinity negative ∈ e.floats ∧
        fault = .invalidField kind field (.nonFiniteFloat (.infinity negative)) := by
  rcases bind_eq_error.mp hfault with hfault | ⟨_, _, hfault⟩
  · exact h.infinite_of_error hfault
  · cases hfault

theorem cause_of_package {package : Option String}
    (h : (compilationUnit package).payload = .error fault) :
    Cause (.compilationUnit package) fault := by
  rcases bind_eq_error.mp h with h | ⟨_, _, h⟩
  · cases package with
    | none => cases h
    | some name =>
      rw [checkPackage, checkName] at h
      split at h
      · cases h
      · rename_i hname
        cases h
        exact .package (Bool.eq_false_iff.mpr hname)
  · cases h

theorem cause_of_function {name : String} {params : List (String × String)}
    {returns : List String} (hfilled : WellFilled (.function name params returns))
    (h : function? name params returns = .error fault) :
    Cause (.function name params returns) fault := by
  obtain ⟨hparams, hname, hreturns⟩ := hfilled
  have hread : parameters params = .ok (params.map fun p => ⟨p.1, p.2⟩) := by
    refine parameters_eq_ok.mpr ⟨?_, fun p hp => ?_⟩
    · rw [List.map_map]
      exact (List.map_id params).symm
    · obtain ⟨written, hwritten, rfl⟩ := List.mem_map.mp hp
      exact hparams written hwritten
  have h := eq_error_of_bind h hread
  have h := eq_error_of_bind h (checkName_eq_ok.mpr hname)
  cases hduplicate : findDuplicate [] (params.map fun p => (⟨p.1, p.2⟩ : Parameter)) with
  | some twice =>
    obtain ⟨_, hseen | htwice⟩ := duplicate_of_findDuplicate hduplicate
    · cases hseen
    · rw [List.map_map] at htwice
      rw [hduplicate] at h
      cases h
      exact .parameter htwice
  | none =>
    rw [hduplicate] at h
    have h := eq_error_of_bind h
      (checkEach_eq_ok.mpr fun type htype => checkName_eq_ok.mpr (hreturns type htype))
    cases h

theorem cause_of_assignment {target value : Expression} (htarget : target.WellNamed)
    (hvalue : value.WellNamed)
    (h : assignment? (some target) (some value) = .error fault) :
    Cause (.assignment (some target) (some value)) fault := by
  rcases bind_eq_error.mp h with h | ⟨_, hread, h⟩
  · obtain ⟨negative, hmem, rfl⟩ := require_eq_error htarget h
    exact .float (by simp [expressions]) hmem
  obtain ⟨hsome, _⟩ := require_eq_ok.mp hread
  cases hsome
  split at h
  · rcases bind_eq_error.mp h with h | ⟨_, _, h⟩
    · obtain ⟨negative, hmem, rfl⟩ := require_eq_error hvalue h
      exact .float (by simp [expressions]) hmem
    · cases h
  · rename_i hassignable
    cases h
    exact .target (Bool.eq_false_iff.mpr hassignable)

theorem cause_of_variableDefinition {typeName name : String} {initializer : Option Expression}
    (hfilled : WellFilled (.variableDefinition typeName name initializer))
    (h : variableDefinition? typeName name initializer = .error fault) :
    Cause (.variableDefinition typeName name initializer) fault := by
  obtain ⟨htype, hname, hvalue⟩ := hfilled
  have h := eq_error_of_bind h (checkName_eq_ok.mpr htype)
  have h := eq_error_of_bind h (checkName_eq_ok.mpr hname)
  rcases bind_eq_error.mp h with h | ⟨_, _, h⟩
  · obtain ⟨e, he, hfault⟩ := checkEach_eq_error h
    have he := Option.mem_toList.mp he
    obtain ⟨negative, hmem, rfl⟩ := (hvalue e he).infinite_of_error hfault
    exact .float (List.mem_map_of_mem (Option.mem_toList.mpr he)) hmem
  · cases h

theorem cause_of_callStatement {e : Expression} (he : e.WellNamed)
    (h : callStatement? (some e) = .error fault) : Cause (.callStatement (some e)) fault := by
  rcases bind_eq_error.mp h with h | ⟨_, hread, h⟩
  · obtain ⟨negative, hmem, rfl⟩ := require_eq_error he h
    exact .float (List.mem_singleton_self _) hmem
  obtain ⟨hsome, _⟩ := require_eq_ok.mp hread
  cases hsome
  split at h
  · cases h
  · rename_i hcall
    cases h
    exact .call (Bool.eq_false_iff.mpr hcall)

/-- A form that is filled in well is refused for one of the causes. -/
theorem WellFilled.cause (hfilled : form.WellFilled) (h : form.payload = .error fault) :
    Cause form fault := by
  cases form with
  | compilationUnit package => exact cause_of_package h
  | function name params returns => exact cause_of_function hfilled h
  | ifStatement e | elseIfClause e | whileLoop e | replyStatement e | throwStatement e =>
    obtain ⟨e, rfl, he⟩ := hfilled
    obtain ⟨negative, hmem, rfl⟩ := require_eq_error he (map_eq_error.mp h)
    exact .float (List.mem_singleton_self _) hmem
  | assignment target value =>
    obtain ⟨target, value, rfl, rfl, htarget, hvalue⟩ := hfilled
    exact cause_of_assignment htarget hvalue h
  | variableDefinition typeName name initializer => exact cause_of_variableDefinition hfilled h
  | callStatement e =>
    obtain ⟨e, rfl, he⟩ := hfilled
    exact cause_of_callStatement he h
  | returnStatement values =>
    rcases bind_eq_error.mp h with h | ⟨_, _, h⟩
    · obtain ⟨e, he, negative, hmem, rfl⟩ :=
        Expression.AllWellNamed.infinite_of_error hfilled h
      exact .float (List.mem_map_of_mem he) hmem
    · cases h
  | catchClause typeName name =>
    obtain ⟨htype, hname⟩ := hfilled
    rw [payload, catchClause?_eq_ok.mpr ⟨rfl, htype, hname⟩] at h
    cases h
  | comment text =>
    rw [payload, comment?_eq_ok.mpr ⟨hfilled, rfl⟩] at h
    cases h
  | block | elseClause | breakStatement | continueStatement | tryStatement => cases h

/-- The expressions of a form that gives a payload have passed their checks. -/
theorem validate_of_payload {p : Payload} {field : String} {e : Expression}
    (h : form.payload = .ok p) (hmem : (field, e) ∈ form.expressions) :
    e.validate form.kind field = .ok () := by
  cases form with
  | ifStatement value | elseIfClause value | whileLoop value | replyStatement value
  | throwStatement value =>
    obtain ⟨e', hrequire, _⟩ := map_eq_ok.mp h
    obtain ⟨rfl, hvalid⟩ := require_eq_ok.mp hrequire
    cases List.mem_singleton.mp hmem
    exact hvalid
  | assignment target value =>
    obtain ⟨target, value, rfl, rfl, rfl, htarget, _, hvalue⟩ := assignment?_eq_ok.mp h
    rcases List.mem_append.mp hmem with hmem | hmem
    · cases List.mem_singleton.mp hmem
      exact htarget
    · cases List.mem_singleton.mp hmem
      exact hvalue
  | variableDefinition typeName name initializer =>
    obtain ⟨rfl, _, _, hvalid⟩ := variableDefinition?_eq_ok.mp h
    obtain ⟨e', he, hpair⟩ := List.mem_map.mp hmem
    cases hpair
    exact hvalid e (Option.mem_toList.mp he)
  | callStatement value =>
    obtain ⟨e', rfl, rfl, hvalid, _⟩ := callStatement?_eq_ok.mp h
    cases List.mem_singleton.mp hmem
    exact hvalid
  | returnStatement values =>
    obtain ⟨hvalid, _⟩ := bind_unit_eq_ok.mp h
    obtain ⟨e', he, hpair⟩ := List.mem_map.mp hmem
    cases hpair
    exact checkEach_eq_ok.mp hvalid e he
  | _ => cases hmem

/-- Each of the causes keeps a form from giving a payload. -/
theorem Cause.payload_ne_ok (h : Cause form fault) (p : Payload) : form.payload ≠ .ok p := by
  intro hok
  cases h with
  | package hname =>
    obtain ⟨hpackage, _⟩ := bind_unit_eq_ok.mp hok
    rw [checkPackage_eq_ok.mp hpackage _ rfl] at hname
    cases hname
  | parameter htwice =>
    obtain ⟨params, rfl, rfl, _, _, hnone, _⟩ := function?_eq_ok.mp hok
    rw [List.map_map] at htwice
    exact htwice.not_nodup (nodup_of_findDuplicate hnone).1
  | target hassignable =>
    obtain ⟨target, value, htarget, _, rfl, _, hyes, _⟩ := assignment?_eq_ok.mp hok
    cases htarget
    rw [hyes] at hassignable
    cases hassignable
  | call hcall =>
    obtain ⟨e, he, rfl, _, hyes⟩ := callStatement?_eq_ok.mp hok
    cases he
    rw [hyes] at hcall
    cases hcall
  | float hmem hfloat =>
    have hfinite := Expression.finite_of_validate _ (validate_of_payload hok hmem) _ hfloat
    cases hfinite

/-- A fault with a cause is about no field that is missing, no name but that of the package, and no
line break. -/
theorem Cause.only (h : Cause form fault) :
    (∀ kind field, fault ≠ .missingField kind field) ∧
    (∀ kind field value, fault = .invalidIdentifier kind field value →
      kind = .compilationUnit ∧ field = "package") ∧
    ∀ kind field, fault ≠ .invalidField kind field .lineBreak := by
  refine ⟨fun kind field h' => ?_, fun kind field value h' => ?_, fun kind field h' => ?_⟩
  · cases h <;> cases h'
  · cases h with
    | package =>
      cases h'
      exact ⟨rfl, rfl⟩
    | parameter | target | call | float => cases h'
  · cases h <;> cases h'

end Causes

end Form

namespace Grammar

variable {text rest : List Char}

theorem Spelled.wellNamed {n : Nat} {e : Expression} (h : Spelled (.expression n) e text rest) :
    e.WellNamed := by
  obtain ⟨d, rfl⟩ := h
  exact d.wellNamed

theorem Spelled.allWellNamed {es : List Expression} (h : Spelled .arguments es text rest) :
    Expression.AllWellNamed es := by
  obtain ⟨d, rfl⟩ := h
  exact d.wellNamed

theorem Condition.wellNamed {e : Expression} (h : Condition e text rest) : e.WellNamed := by
  obtain ⟨_, he, _⟩ := h
  exact he.wellNamed

theorem Assigned.wellNamed {value : Option Expression} (h : Assigned value text rest) :
    ∀ e ∈ value, e.WellNamed := by
  cases h with
  | none => exact nofun
  | some _ he =>
    intro e hmem
    cases hmem
    exact he.wellNamed

theorem TypeAfter.isTypeName {type : String} (h : TypeAfter type text rest) :
    Name.isTypeName type.toList = true := by
  obtain ⟨_, htype⟩ := h
  rw [String.toList_ofList]
  exact htype.isTypeName

theorem Declared.wellNamed {declared : String × String} (h : Declared declared text rest) :
    Name.isTypeName declared.1.toList = true ∧ Name.isIdentifier declared.2.toList = true := by
  obtain ⟨_, htype, _, hname⟩ := h
  rw [String.toList_ofList, String.toList_ofList]
  exact ⟨htype.isTypeName, hname.isIdentifier⟩

/-- What holds of each item of a text holds of all that are separated by commas. -/
theorem Separated.forall {α : Type} {item : α → List Char → List Char → Prop} {P : α → Prop}
    (hitem : ∀ {a text rest}, item a text rest → P a) {as : List α}
    (h : Separated item as text rest) : ∀ a ∈ as, P a := by
  induction h with
  | none => exact List.forall_mem_nil _
  | last h => exact List.forall_mem_singleton.mpr (hitem h)
  | more h _ _ ih => exact List.forall_mem_cons.mpr ⟨hitem h, ih⟩

theorem Returns.isTypeName {types : List String} (h : Returns types text rest) :
    ∀ type ∈ types, Name.isTypeName type.toList = true := by
  cases h with
  | none => exact List.forall_mem_nil _
  | some _ _ htypes _ => exact htypes.forall fun h => h.isTypeName

/-- What stands in a text as a program is filled in well. -/
theorem Stands.wellFilled {d : Draft} (h : Stands (.node d) text rest) : d.form.WellFilled := by
  cases h with
  | comment _ hcontent _ =>
    intro c hc
    rw [String.toList_ofList] at hc
    exact hcontent c hc
  | block | elseClause | tryStatement | compilationUnit => trivial
  | ifStatement _ he _ _ _ _ => exact ⟨_, rfl, he.wellNamed⟩
  | elseIfClause _ _ _ he _ => exact ⟨_, rfl, he.wellNamed⟩
  | whileLoop _ he _ => exact ⟨_, rfl, he.wellNamed⟩
  | catchClause _ _ hcaught _ _ => exact hcaught.wellNamed
  | jump hjump _ _ => cases hjump <;> trivial
  | returnStatement _ hvalues _ => exact hvalues.allWellNamed
  | valued hvalued _ he _ => cases hvalued <;> exact ⟨_, rfl, he.wellNamed⟩
  | definition _ hdeclared hvalue _ =>
    exact ⟨hdeclared.wellNamed.1, hdeclared.wellNamed.2, hvalue.wellNamed⟩
  | assignment _ htarget hvalue _ =>
    exact ⟨_, _, rfl, rfl, htarget.wellNamed, hvalue.wellNamed _ rfl⟩
  | call _ he _ => exact ⟨_, rfl, he.wellNamed⟩
  | function _ _ hname _ hparams _ hreturns _ =>
    refine ⟨hparams.forall fun h => h.wellNamed, ?_, hreturns.isTypeName⟩
    rw [String.toList_ofList]
    exact hname.isIdentifier

end Grammar

section Reports

variable {source : String} {d : Draft}

/-- Every form of a text that is read is filled in well. -/
theorem wellFilled_of_run (h : Reader.run compilationUnit source.toList = .ok d) :
    ∀ n ∈ d.preorder, n.form.WellFilled := by
  intro n hn
  obtain ⟨_, _, hstands⟩ := unit_of_run h
  obtain ⟨_, _, _, hn⟩ := hstands.located n hn
  exact hn.wellFilled

theorem wellMade_iff_of_run (h : Reader.run compilationUnit source.toList = .ok d) {n : Draft}
    (hn : n ∈ d.preorder) : n.WellMade ↔ ∀ fault, ¬ Form.Cause n.form fault := by
  constructor
  · rintro ⟨p, hp⟩ fault hcause
    exact hcause.payload_ne_ok p hp
  · intro hnone
    cases hpayload : n.form.payload with
    | ok p => exact ⟨p, hpayload⟩
    | error fault => exact absurd ((wellFilled_of_run h n hn).cause hpayload) (hnone fault)

/-- The readers of names take exactly the texts that pass as names. So a text that is read gives a
tree unless one of its forms has a cause, which is one of five, and an error that is reported for
such a text is that of a form with a cause, the first one in reading order. -/
theorem read_names_and_causes :
    (identifier.TakesWhole Name.isIdentifier ∧ qualified.TakesWhole Name.isQualified ∧
      typeName.TakesWhole Name.isTypeName) ∧
    (∀ form fault, Form.Cause form fault → (∀ kind field, fault ≠ .missingField kind field) ∧
      (∀ kind field value, fault = .invalidIdentifier kind field value →
        kind = .compilationUnit ∧ field = "package") ∧
      ∀ kind field, fault ≠ .invalidField kind field .lineBreak) ∧
    ∀ source : String,
      (∀ d, Reader.run compilationUnit source.toList = .ok d →
        ((∃ t, buildTree source = .ok t) ↔ ∀ n ∈ d.preorder, ∀ fault, ¬ Form.Cause n.form fault)) ∧
      ∀ e, buildTree source = .error e ↔ Reader.run compilationUnit source.toList = .error e ∨
        ∃ (d n : Draft) (fault : MalformedNode) (above text : List Char),
          Reader.run compilationUnit source.toList = .ok d ∧
          Draft.FirstMalformed d.preorder n fault ∧ BeginsAt source.toList d n above text ∧
          Form.Cause n.form fault ∧
          e = ⟨above.count '\n' + 1, (above.reverse.takeWhile (· != '\n')).length + 1,
            fault.message⟩ := by
  refine ⟨⟨identifier_takesWhole, qualified_takesWhole, typeName_takesWhole⟩,
    fun _ _ => Form.Cause.only, fun source => ⟨fun d hd => ?_, fun e => ?_⟩⟩
  · rw [(buildTree_first_fault hd).1]
    exact forall₂_congr fun n hn => wellMade_iff_of_run hd hn
  cases hd : Reader.run compilationUnit source.toList with
  | error e' =>
    rw [buildTree, hd]
    simp
  | ok d =>
    rw [(buildTree_first_fault hd).2.2 e]
    constructor
    · rintro ⟨n, fault, above, text, hfirst, hplace, he⟩
      have hcause := (wellFilled_of_run hd n hfirst.mem).cause hfirst.payload_eq
      exact Or.inr ⟨d, n, fault, above, text, rfl, hfirst, hplace, hcause, he⟩
    · rintro (herror | ⟨d', n, fault, above, text, hd', hfirst, hplace, _, he⟩)
      · cases herror
      · cases hd'
        exact ⟨n, fault, above, text, hfirst, hplace, he⟩

/-- A name that two parameters of a function have is the only thing wrong with it. -/
theorem repeated_parameter_caused :
    ∃ d fault, Reader.run compilationUnit "function f(t x, t x)\x7b\x7d".toList = .ok d ∧
      Form.Cause (.function "f" [("t", "x"), ("t", "x")] []) fault ∧
      (∀ kind field, fault ≠ .missingField kind field) ∧
      ¬ ∃ t, buildTree "function f(t x, t x)\x7b\x7d" = .ok t := by
  have hread : (fun d => d.preorder.map Draft.form) <$>
        Reader.run compilationUnit "function f(t x, t x)\x7b\x7d".toList =
      .ok [.compilationUnit none, .function "f" [("t", "x"), ("t", "x")] []] := by
    decide +kernel
  obtain ⟨d, hrun, hforms⟩ := map_eq_ok.mp hread
  have hcause : Form.Cause (.function "f" [("t", "x"), ("t", "x")] [])
      (.invalidField .function "params" (.duplicateParameter "x")) :=
    .parameter (.cons_mem List.mem_cons_self)
  obtain ⟨_, honly, hreported⟩ := read_names_and_causes
  refine ⟨d, _, hrun, hcause, (honly _ _ hcause).1, ?_⟩
  rw [(hreported _).1 d hrun]
  intro hnone
  have hmem : Form.function "f" [("t", "x"), ("t", "x")] [] ∈ d.preorder.map Draft.form := by
    rw [hforms]
    exact List.mem_cons_of_mem _ List.mem_cons_self
  obtain ⟨n, hn, hform⟩ := List.mem_map.mp hmem
  exact hnone n hn _ (hform ▸ hcause)

example : (fun _ => ()) <$> buildTree "\nfunction f(int a, b:c[] a)\x7b\x7d" =
    .error ⟨2, 1, "function: `params` declares parameter 'a' twice"⟩ := by
  decide +kernel

end Reports

end ProgramTree
