import Mathlib.Data.List.DropRight
import ProgramTree.Payload
import ProgramTree.Proofs.Expression.RoundTrip

/-! # Payloads that forms give

A form is checked field by field, and the payload that it gives holds the same
fields; only the text of a comment is trimmed. So the payloads that forms give
are those that conform to the checks, and each is given by a form of its own. -/

namespace ProgramTree

set_option autoImplicit false

section Checks

variable {ε α β : Type}

theorem bind_eq_ok {x : Except ε α} {f : α → Except ε β} {b : β} :
    x >>= f = .ok b ↔ ∃ a, x = .ok a ∧ f a = .ok b := by
  cases x with
  | error e =>
    constructor
    · intro h
      cases h
    · rintro ⟨a, h, _⟩
      cases h
  | ok a =>
    constructor
    · exact fun h => ⟨a, rfl, h⟩
    · rintro ⟨_, h, hf⟩
      cases h
      exact hf

theorem bind_unit_eq_ok {x : Except ε Unit} {f : Unit → Except ε β} {b : β} :
    x >>= f = .ok b ↔ x = .ok () ∧ f () = .ok b := by
  rw [bind_eq_ok]
  exact ⟨fun ⟨_, hx, hf⟩ => ⟨hx, hf⟩, fun ⟨hx, hf⟩ => ⟨(), hx, hf⟩⟩

theorem map_eq_ok {x : Except ε α} {f : α → β} {b : β} :
    f <$> x = .ok b ↔ ∃ a, x = .ok a ∧ f a = b := by
  cases x with
  | error e =>
    constructor
    · intro h
      cases h
    · rintro ⟨a, h, _⟩
      cases h
  | ok a =>
    constructor
    · intro h
      cases h
      exact ⟨a, rfl, rfl⟩
    · rintro ⟨_, h, rfl⟩
      cases h
      rfl

theorem bind_eq_error {x : Except ε α} {f : α → Except ε β} {e : ε} :
    x >>= f = .error e ↔ x = .error e ∨ ∃ a, x = .ok a ∧ f a = .error e := by
  cases x with
  | error e' =>
    constructor
    · intro h
      cases h
      exact Or.inl rfl
    · rintro (h | ⟨a, h, _⟩)
      · cases h
        rfl
      · cases h
  | ok a =>
    constructor
    · exact fun h => Or.inr ⟨a, rfl, h⟩
    · rintro (h | ⟨_, h, hf⟩)
      · cases h
      · cases h
        exact hf

/-- What goes wrong after a step that succeeded. -/
theorem eq_error_of_bind {x : Except ε α} {f : α → Except ε β} {a : α} {e : ε}
    (h : x >>= f = .error e) (hx : x = .ok a) : f a = .error e := by
  rw [hx] at h
  exact h

theorem map_eq_error {x : Except ε α} {f : α → β} {e : ε} : f <$> x = .error e ↔ x = .error e := by
  cases x with
  | error e' => exact ⟨fun h => by cases h; rfl, fun h => by cases h; rfl⟩
  | ok a => exact ⟨nofun, nofun⟩

theorem checkEach_eq_ok {check : α → Except MalformedNode Unit} {as : List α} :
    checkEach check as = .ok () ↔ ∀ a ∈ as, check a = .ok () := by
  induction as with
  | nil => simp [checkEach]
  | cons a as ih => rw [checkEach, seq_eq_ok, ih, List.forall_mem_cons]

theorem checkEach_eq_error {check : α → Except MalformedNode Unit} {as : List α}
    {fault : MalformedNode} (h : checkEach check as = .error fault) :
    ∃ a ∈ as, check a = .error fault := by
  induction as with
  | nil => cases h
  | cons a as ih =>
    rcases bind_eq_error.mp h with h | ⟨_, _, h⟩
    · exact ⟨a, List.mem_cons_self, h⟩
    · obtain ⟨b, hb, hfault⟩ := ih h
      exact ⟨b, List.mem_cons_of_mem a hb, hfault⟩

end Checks

section Trimming

theorem toList_trimBlanks (text : String) :
    (trimBlanks text).toList = (text.toList.dropWhile isBlank).rdropWhile isBlank := by
  rw [trimBlanks, String.toList_ofList, List.rdropWhile]

theorem mem_of_mem_trimBlanks {text : String} {c : Char} (h : c ∈ (trimBlanks text).toList) :
    c ∈ text.toList := by
  rw [toList_trimBlanks] at h
  exact (List.dropWhile_suffix isBlank).subset ((List.rdropWhile_prefix isBlank _).subset h)

theorem trimBlanks_trimBlanks (text : String) : trimBlanks (trimBlanks text) = trimBlanks text := by
  apply String.toList_inj.mp
  have hstart : StartsNot isBlank (trimBlanks text).toList := by
    have hdropped := startsNot_dropWhile isBlank text.toList
    rw [toList_trimBlanks]
    obtain ⟨tail, htail⟩ := List.rdropWhile_prefix isBlank (text.toList.dropWhile isBlank)
    cases hfront : (text.toList.dropWhile isBlank).rdropWhile isBlank with
    | nil => exact startsNot_nil
    | cons c front =>
      rw [hfront] at htail
      rw [← htail] at hdropped
      exact hdropped
  rw [toList_trimBlanks (trimBlanks text), dropWhile_of_startsNot hstart, toList_trimBlanks,
    List.rdropWhile_idempotent]

theorem trimBlanks_space (cs : List Char) :
    trimBlanks (String.ofList (' ' :: cs)) = trimBlanks (String.ofList cs) := by
  simp only [trimBlanks, String.toList_ofList]
  rw [List.dropWhile_cons_of_pos (by decide)]

end Trimming

namespace Payload

/-- The form that holds the fields of a payload. -/
def form : Payload → Form
  | compilationUnit package => .compilationUnit package
  | function name params returns =>
    .function name (params.map fun p => (p.typeName, p.name)) returns
  | block => .block
  | ifStatement condition => .ifStatement (some condition)
  | elseIfClause condition => .elseIfClause (some condition)
  | elseClause => .elseClause
  | whileLoop condition => .whileLoop (some condition)
  | assignment target value => .assignment (some target) (some value)
  | variableDefinition typeName name initializer => .variableDefinition typeName name initializer
  | callStatement expression => .callStatement (some expression)
  | returnStatement values => .returnStatement values
  | replyStatement value => .replyStatement (some value)
  | breakStatement => .breakStatement
  | continueStatement => .continueStatement
  | throwStatement value => .throwStatement (some value)
  | tryStatement => .tryStatement
  | catchClause typeName variableName => .catchClause typeName variableName
  | comment text => .comment text

/-- Some form gives the payload. -/
def Made (p : Payload) : Prop :=
  ∃ form : Form, form.payload = .ok p

/-- The fields pass the checks of the form that they are filled in. -/
def Conforms : Payload → Prop
  | compilationUnit package => ∀ name ∈ package, Name.isPackageName name.toList = true
  | function name params returns =>
    (∀ p ∈ params, Name.isTypeName p.typeName.toList = true ∧
      Name.isIdentifier p.name.toList = true) ∧
    Name.isIdentifier name.toList = true ∧ Form.findDuplicate [] params = none ∧
    ∀ type ∈ returns, Name.isTypeName type.toList = true
  | ifStatement condition => condition.validate .ifStatement "condition" = .ok ()
  | elseIfClause condition => condition.validate .elseIfClause "condition" = .ok ()
  | whileLoop condition => condition.validate .whileLoop "condition" = .ok ()
  | assignment target value =>
    target.validate .assignment "target" = .ok () ∧ target.isAssignable = true ∧
      value.validate .assignment "value" = .ok ()
  | variableDefinition typeName name initializer =>
    Name.isTypeName typeName.toList = true ∧ Name.isIdentifier name.toList = true ∧
      ∀ e ∈ initializer, e.validate .variableDefinition "initializer" = .ok ()
  | callStatement expression =>
    expression.validate .callStatement "expression" = .ok () ∧ expression.isCall = true
  | returnStatement values => ∀ e ∈ values, e.validate .returnStatement "values" = .ok ()
  | replyStatement value => value.validate .replyStatement "value" = .ok ()
  | throwStatement value => value.validate .throwStatement "value" = .ok ()
  | catchClause typeName variableName =>
    Name.isTypeName typeName.toList = true ∧ Name.isIdentifier variableName.toList = true
  | comment text =>
    (∀ c ∈ text.toList, c ≠ '\n' ∧ c ≠ '\r') ∧ trimBlanks text = text
  | block | elseClause | breakStatement | continueStatement | tryStatement => True

end Payload

namespace Form

section Fields

variable {kind : NodeKind} {field : String} {value : Option Expression} {e : Expression}

theorem require_eq_ok :
    require kind field value = .ok e ↔ value = some e ∧ e.validate kind field = .ok () := by
  cases value with
  | none => simp [require]
  | some e' =>
    rw [require, bind_unit_eq_ok]
    constructor
    · rintro ⟨hvalid, he⟩
      cases he
      exact ⟨rfl, hvalid⟩
    · rintro ⟨he, hvalid⟩
      cases he
      exact ⟨hvalid, rfl⟩

theorem parameter_eq_ok {written : String × String} {p : Parameter} :
    parameter written = .ok p ↔ written = (p.typeName, p.name) ∧
      Name.isTypeName p.typeName.toList = true ∧ Name.isIdentifier p.name.toList = true := by
  simp only [parameter, bind_unit_eq_ok, checkName_eq_ok]
  constructor
  · rintro ⟨htype, hname, hp⟩
    cases hp
    exact ⟨rfl, htype, hname⟩
  · rintro ⟨rfl, htype, hname⟩
    exact ⟨htype, hname, rfl⟩

theorem parameters_eq_ok {written : List (String × String)} {params : List Parameter} :
    parameters written = .ok params ↔ written = params.map (fun p => (p.typeName, p.name)) ∧
      ∀ p ∈ params, Name.isTypeName p.typeName.toList = true ∧
        Name.isIdentifier p.name.toList = true := by
  induction written generalizing params with
  | nil =>
    cases params <;> simp [parameters]
  | cons first written ih =>
    rw [parameters, bind_eq_ok]
    simp only [bind_eq_ok, parameter_eq_ok, ih]
    constructor
    · rintro ⟨p, ⟨hfirst, hp⟩, others, ⟨hothers, hall⟩, hparams⟩
      cases hparams
      exact ⟨by rw [hfirst, hothers, List.map_cons], List.forall_mem_cons.mpr ⟨hp, hall⟩⟩
    · rintro ⟨hwritten, hall⟩
      cases params with
      | nil => cases hwritten
      | cons p params =>
        rw [List.map_cons, List.cons.injEq] at hwritten
        obtain ⟨hp, hothers⟩ := List.forall_mem_cons.mp hall
        exact ⟨p, ⟨hwritten.1, hp⟩, params, ⟨hwritten.2, hothers⟩, rfl⟩

theorem checkPackage_eq_ok {package : Option String} :
    checkPackage package = .ok () ↔ ∀ name ∈ package, Name.isPackageName name.toList = true := by
  cases package with
  | none => simp [checkPackage]
  | some name => simp [checkPackage, checkName_eq_ok]

theorem function?_eq_ok {name : String} {written : List (String × String)}
    {returns : List String} {p : Payload} :
    function? name written returns = .ok p ↔ ∃ params,
      written = params.map (fun p => (p.typeName, p.name)) ∧
      p = .function name params returns ∧ p.Conforms := by
  rw [function?, bind_eq_ok]
  simp only [parameters_eq_ok, bind_unit_eq_ok, checkName_eq_ok]
  constructor
  · rintro ⟨params, ⟨hwritten, hall⟩, hname, hmatch⟩
    cases hduplicate : findDuplicate [] params with
    | some duplicate =>
      rw [hduplicate] at hmatch
      cases hmatch
    | none =>
      rw [hduplicate] at hmatch
      obtain ⟨hreturns, hp⟩ := bind_unit_eq_ok.mp hmatch
      cases hp
      exact ⟨params, hwritten, rfl, hall, hname, hduplicate,
        fun type htype => checkName_eq_ok.mp (checkEach_eq_ok.mp hreturns type htype)⟩
  · rintro ⟨params, hwritten, rfl, hall, hname, hduplicate, hreturns⟩
    refine ⟨params, ⟨hwritten, hall⟩, hname, ?_⟩
    rw [hduplicate]
    exact bind_unit_eq_ok.mpr
      ⟨checkEach_eq_ok.mpr fun type htype => checkName_eq_ok.mpr (hreturns type htype), rfl⟩

theorem assignment?_eq_ok {target value : Option Expression} {p : Payload} :
    assignment? target value = .ok p ↔ ∃ target' value', target = some target' ∧
      value = some value' ∧ p = .assignment target' value' ∧ p.Conforms := by
  simp only [assignment?, bind_eq_ok, require_eq_ok]
  constructor
  · rintro ⟨target', ⟨htarget, hvalid⟩, hmatch⟩
    cases hassignable : target'.isAssignable with
    | false =>
      rw [hassignable] at hmatch
      cases hmatch
    | true =>
      rw [if_pos hassignable] at hmatch
      obtain ⟨value', hvalue, hp⟩ := bind_eq_ok.mp hmatch
      obtain ⟨hsome, hvalid'⟩ := require_eq_ok.mp hvalue
      cases hp
      exact ⟨target', value', htarget, hsome, rfl, hvalid, hassignable, hvalid'⟩
  · rintro ⟨target', value', htarget, hvalue, rfl, hvalid, hassignable, hvalid'⟩
    refine ⟨target', ⟨htarget, hvalid⟩, ?_⟩
    rw [if_pos hassignable]
    exact bind_eq_ok.mpr ⟨value', require_eq_ok.mpr ⟨hvalue, hvalid'⟩, rfl⟩

theorem variableDefinition?_eq_ok {typeName name : String} {initializer : Option Expression}
    {p : Payload} :
    variableDefinition? typeName name initializer = .ok p ↔
      p = .variableDefinition typeName name initializer ∧ p.Conforms := by
  simp only [variableDefinition?, bind_unit_eq_ok, checkName_eq_ok, checkEach_eq_ok,
    Option.mem_toList]
  constructor
  · rintro ⟨htype, hname, hvalid, hp⟩
    cases hp
    exact ⟨rfl, htype, hname, hvalid⟩
  · rintro ⟨rfl, htype, hname, hvalid⟩
    exact ⟨htype, hname, hvalid, rfl⟩

theorem callStatement?_eq_ok {value : Option Expression} {p : Payload} :
    callStatement? value = .ok p ↔
      ∃ e, value = some e ∧ p = .callStatement e ∧ p.Conforms := by
  simp only [callStatement?, bind_eq_ok, require_eq_ok]
  constructor
  · rintro ⟨e, ⟨he, hvalid⟩, hmatch⟩
    cases hcall : e.isCall with
    | false =>
      rw [hcall] at hmatch
      cases hmatch
    | true =>
      rw [if_pos hcall] at hmatch
      cases hmatch
      exact ⟨e, he, rfl, hvalid, hcall⟩
  · rintro ⟨e, he, rfl, hvalid, hcall⟩
    exact ⟨e, ⟨he, hvalid⟩, by rw [if_pos hcall]; rfl⟩

theorem catchClause?_eq_ok {typeName name : String} {p : Payload} :
    catchClause? typeName name = .ok p ↔ p = .catchClause typeName name ∧ p.Conforms := by
  simp only [catchClause?, bind_unit_eq_ok, checkName_eq_ok]
  constructor
  · rintro ⟨htype, hname, hp⟩
    cases hp
    exact ⟨rfl, htype, hname⟩
  · rintro ⟨rfl, htype, hname⟩
    exact ⟨htype, hname, rfl⟩

theorem comment?_eq_ok {text : String} {p : Payload} :
    comment? text = .ok p ↔
      (∀ c ∈ text.toList, c ≠ '\n' ∧ c ≠ '\r') ∧ p = .comment (trimBlanks text) := by
  unfold comment?
  split
  · rename_i hany
    simp only [List.any_eq_true, Bool.or_eq_true, beq_iff_eq] at hany
    obtain ⟨c, hc, hbreak⟩ := hany
    constructor
    · intro h
      cases h
    · rintro ⟨hall, _⟩
      obtain ⟨hline, hreturn⟩ := hall c hc
      exact absurd hbreak (not_or.mpr ⟨hline, hreturn⟩)
  · rename_i hany
    simp only [List.any_eq_true, Bool.or_eq_true, beq_iff_eq, not_exists, not_and, not_or] at hany
    constructor
    · intro h
      cases h
      exact ⟨hany, rfl⟩
    · rintro ⟨_, rfl⟩
      rfl

end Fields

/-- The kind of the payloads that a form gives. -/
def kind : Form → NodeKind
  | compilationUnit _ => .compilationUnit
  | function .. => .function
  | block => .block
  | ifStatement _ => .ifStatement
  | elseIfClause _ => .elseIfClause
  | elseClause => .elseClause
  | whileLoop _ => .whileLoop
  | assignment .. => .assignment
  | variableDefinition .. => .variableDefinition
  | callStatement _ => .callStatement
  | returnStatement _ => .returnStatement
  | replyStatement _ => .replyStatement
  | breakStatement => .breakStatement
  | continueStatement => .continueStatement
  | throwStatement _ => .throwStatement
  | tryStatement => .tryStatement
  | catchClause .. => .catchClause
  | comment _ => .comment

theorem kind_of_payload {form : Form} {p : Payload} (h : form.payload = .ok p) :
    p.kind = form.kind := by
  cases form with
  | compilationUnit package | returnStatement values =>
    obtain ⟨_, hp⟩ := bind_unit_eq_ok.mp h
    cases hp
    rfl
  | function name params returns =>
    obtain ⟨_, _, rfl, _⟩ := function?_eq_ok.mp h
    rfl
  | assignment target value =>
    obtain ⟨_, _, _, _, rfl, _⟩ := assignment?_eq_ok.mp h
    rfl
  | variableDefinition typeName name initializer =>
    obtain ⟨rfl, _⟩ := variableDefinition?_eq_ok.mp h
    rfl
  | callStatement e =>
    obtain ⟨_, _, rfl, _⟩ := callStatement?_eq_ok.mp h
    rfl
  | catchClause typeName name =>
    obtain ⟨rfl, _⟩ := catchClause?_eq_ok.mp h
    rfl
  | comment text =>
    obtain ⟨_, rfl⟩ := comment?_eq_ok.mp h
    rfl
  | ifStatement value | elseIfClause value | whileLoop value | replyStatement value
  | throwStatement value =>
    obtain ⟨_, _, rfl⟩ := map_eq_ok.mp h
    rfl
  | block | elseClause | breakStatement | continueStatement | tryStatement =>
    cases h
    rfl

theorem conforms_of_payload {form : Form} {p : Payload} (h : form.payload = .ok p) :
    p.Conforms := by
  cases form with
  | compilationUnit package =>
    obtain ⟨hpackage, hp⟩ := bind_unit_eq_ok.mp h
    cases hp
    exact checkPackage_eq_ok.mp hpackage
  | function name params returns =>
    obtain ⟨_, _, _, hconforms⟩ := function?_eq_ok.mp h
    exact hconforms
  | assignment target value =>
    obtain ⟨_, _, _, _, _, hconforms⟩ := assignment?_eq_ok.mp h
    exact hconforms
  | variableDefinition typeName name initializer => exact (variableDefinition?_eq_ok.mp h).2
  | callStatement e =>
    obtain ⟨_, _, _, hconforms⟩ := callStatement?_eq_ok.mp h
    exact hconforms
  | catchClause typeName name => exact (catchClause?_eq_ok.mp h).2
  | comment text =>
    obtain ⟨hbreaks, rfl⟩ := comment?_eq_ok.mp h
    exact ⟨fun c hc => hbreaks c (mem_of_mem_trimBlanks hc), trimBlanks_trimBlanks text⟩
  | returnStatement values =>
    obtain ⟨hvalues, hp⟩ := bind_unit_eq_ok.mp h
    cases hp
    exact checkEach_eq_ok.mp hvalues
  | ifStatement value | elseIfClause value | whileLoop value | replyStatement value
  | throwStatement value =>
    obtain ⟨e, he, rfl⟩ := map_eq_ok.mp h
    exact (require_eq_ok.mp he).2
  | block | elseClause | breakStatement | continueStatement | tryStatement =>
    cases h
    trivial

end Form

namespace Payload

/-- A payload that conforms is given by its own form. -/
theorem Conforms.form_payload {p : Payload} (h : p.Conforms) : p.form.payload = .ok p := by
  cases p with
  | compilationUnit package => exact bind_unit_eq_ok.mpr ⟨Form.checkPackage_eq_ok.mpr h, rfl⟩
  | function name params returns => exact Form.function?_eq_ok.mpr ⟨params, rfl, rfl, h⟩
  | assignment target value => exact Form.assignment?_eq_ok.mpr ⟨target, value, rfl, rfl, rfl, h⟩
  | variableDefinition typeName name initializer =>
    exact Form.variableDefinition?_eq_ok.mpr ⟨rfl, h⟩
  | callStatement e => exact Form.callStatement?_eq_ok.mpr ⟨e, rfl, rfl, h⟩
  | catchClause typeName name => exact Form.catchClause?_eq_ok.mpr ⟨rfl, h⟩
  | comment text =>
    obtain ⟨hbreaks, htrim⟩ := h
    exact Form.comment?_eq_ok.mpr ⟨hbreaks, by rw [htrim]⟩
  | returnStatement values => exact bind_unit_eq_ok.mpr ⟨checkEach_eq_ok.mpr h, rfl⟩
  | ifStatement e | elseIfClause e | whileLoop e | replyStatement e | throwStatement e =>
    exact map_eq_ok.mpr ⟨e, Form.require_eq_ok.mpr ⟨rfl, h⟩, rfl⟩
  | block | elseClause | breakStatement | continueStatement | tryStatement => rfl

theorem made_iff {p : Payload} : p.Made ↔ p.Conforms :=
  ⟨fun ⟨_, h⟩ => Form.conforms_of_payload h, fun h => ⟨p.form, h.form_payload⟩⟩

end Payload

end ProgramTree
