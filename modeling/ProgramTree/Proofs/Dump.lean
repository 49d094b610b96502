import ProgramTree.CommandLine
import ProgramTree.Proofs.Json.Reading
import ProgramTree.Proofs.Source.Spellable

/-! # Dumps are lossless

The written form of a snapshot tells all of it: the shape of the tree, the kind
of each node and each attribute, down to the literals of its expressions. The
floats of payloads that were checked are finite, so the text of a dump tells
the snapshot as well. -/

namespace ProgramTree

set_option autoImplicit false

/-! ## Floats in what is written -/

theorem Json.exact_strings (items : List String) : (strings items).Exact := by
  simp [strings]

theorem Json.exact_ofOption {α : Type} {write : α → Json} {o : Option α}
    (h : ∀ a ∈ o, (write a).Exact) : (ofOption write o).Exact := by
  cases o with
  | none => exact .null
  | some a => exact h a rfl

theorem Literal.exact_json {value : Literal} {kind : NodeKind} {field : String}
    (h : (Expression.literal value).validate kind field = .ok ()) : value.json.Exact := by
  cases value with
  | float value =>
    rw [Expression.validate] at h
    split at h
    · simpa [json]
    · cases h
  | int | string | boolean | null => simp [json]

namespace Expression

variable {kind : NodeKind} {field : String}

mutual

theorem exact_json (e : Expression) (h : e.validate kind field = .ok ()) : e.json.Exact := by
  cases e with
  | name n => simp [json]
  | literal value => simpa [json] using Literal.exact_json h
  | unary op operand => simpa [json] using exact_json operand h
  | binary op lhs rhs =>
    obtain ⟨hlhs, hrhs⟩ := seq_eq_ok.mp h
    simpa [json] using And.intro (exact_json lhs hlhs) (exact_json rhs hrhs)
  | call target args =>
    obtain ⟨_, hargs⟩ := seq_eq_ok.mp h
    simpa [json] using exact_jsons args hargs
  | field target n =>
    obtain ⟨htarget, _⟩ := seq_eq_ok.mp h
    simpa [json] using exact_json target htarget
  | index target position =>
    obtain ⟨htarget, hposition⟩ := seq_eq_ok.mp h
    simpa [json] using And.intro (exact_json target htarget) (exact_json position hposition)

theorem exact_jsons (es : List Expression) (h : validateAll kind field es = .ok ()) :
    ∀ j ∈ jsons es, j.Exact := by
  cases es with
  | nil => exact List.forall_mem_nil _
  | cons e es =>
    obtain ⟨he, hes⟩ := seq_eq_ok.mp h
    exact List.forall_mem_cons.mpr ⟨exact_json e he, exact_jsons es hes⟩

end

theorem jsons_eq_map (es : List Expression) : jsons es = es.map json := by
  induction es with
  | nil => rfl
  | cons e es ih => rw [jsons, ih, List.map_cons]

end Expression

theorem Payload.Conforms.exact_fields {p : Payload} (h : p.Conforms) :
    ∀ field ∈ p.fields, field.2.Exact := by
  cases p with
  | compilationUnit package =>
    simpa [fields] using Json.exact_ofOption fun name _ => .string name
  | function name params returns => simp [fields, Json.exact_strings]
  | callStatement e => simpa [fields] using e.exact_json h.1
  | ifStatement e | elseIfClause e | whileLoop e | replyStatement e | throwStatement e =>
    simpa [fields] using e.exact_json h
  | assignment target value =>
    obtain ⟨htarget, _, hvalue⟩ := h
    simpa [fields] using And.intro (target.exact_json htarget) (value.exact_json hvalue)
  | variableDefinition typeName name initializer =>
    obtain ⟨_, _, hinitializer⟩ := h
    simpa [fields] using Json.exact_ofOption fun e he => e.exact_json (hinitializer e he)
  | returnStatement values =>
    have hvalues : ∀ e ∈ values, e.json.Exact := fun e he => e.exact_json (h e he)
    simpa [fields, Expression.jsons_eq_map] using hvalues
  | catchClause typeName name => simp [fields]
  | comment text => simp [fields]
  | block | elseClause | breakStatement | continueStatement | tryStatement =>
    exact List.forall_mem_nil _

theorem Payload.Conforms.exact_json {p : Payload} (h : p.Conforms) : p.json.Exact :=
  .object (List.forall_mem_cons.mpr ⟨.string _, h.exact_fields⟩)

theorem Snapshot.jsons_eq_map (ss : List Snapshot) : jsons ss = ss.map json := by
  induction ss with
  | nil => rfl
  | cons s ss ih => rw [jsons, ih, List.map_cons]

theorem Snapshot.Admissible.exact_json {s : Snapshot} (h : s.Admissible) : s.json.Exact := by
  induction h with
  | @node payload children hconforms _ _ ih =>
    cases children with
    | nil => simpa [json] using hconforms.exact_json
    | cons c children =>
      simpa [json, jsons_eq_map] using And.intro hconforms.exact_json (List.forall_mem_cons.mp ih)

/-! ## What is told by the written form -/

theorem UnaryOp.eq_of_name {op op' : UnaryOp} (h : op.name = op'.name) : op = op' := by
  cases op <;> cases op' <;> first | rfl | exact absurd h (by decide)

theorem BinaryOp.find?_name (op : BinaryOp) : all.find? (·.name == op.name) = some op := by
  cases op <;> rfl

theorem BinaryOp.eq_of_name {op op' : BinaryOp} (h : op.name = op'.name) : op = op' := by
  rw [← Option.some.injEq, ← find?_name op, ← find?_name op', h]

theorem NodeKind.ofName?_name (kind : NodeKind) : ofName? kind.name = some kind := by
  cases kind <;> rfl

theorem NodeKind.eq_of_name {kind kind' : NodeKind} (h : kind.name = kind'.name) :
    kind = kind' := by
  rw [← Option.some.injEq, ← ofName?_name kind, ← ofName?_name kind', h]

theorem Json.eq_of_ofOption {α : Type} {write : α → Json} {o o' : Option α}
    (hwrite : ∀ a a', write a = write a' → a = a') (hnull : ∀ a, write a ≠ null)
    (h : ofOption write o = ofOption write o') : o = o' := by
  cases o with
  | none =>
    cases o' with
    | none => rfl
    | some a' => exact absurd h.symm (hnull a')
  | some a =>
    cases o' with
    | none => exact absurd h (hnull a)
    | some a' => rw [hwrite a a' h]

theorem Literal.eq_of_json {value value' : Literal} (h : value.json = value'.json) :
    value = value' := by
  cases value <;> cases value' <;> simp only [json, Json.object.injEq, List.cons.injEq,
    Prod.mk.injEq, Json.int.injEq, Json.float.injEq, Json.string.injEq, Json.bool.injEq, and_true,
    true_and, reduceCtorEq, String.reduceEq, false_and] at h
  case int.int value value' => rw [Int64.toInt_inj.mp h]
  case null.null => rfl
  all_goals rw [h]

namespace Expression

mutual

theorem eq_of_json (e e' : Expression) (h : e.json = e'.json) : e = e' := by
  cases e <;> cases e' <;> simp only [json, Json.object.injEq, Json.string.injEq, Json.array.injEq,
    List.cons.injEq, Prod.mk.injEq, and_true, true_and, reduceCtorEq, String.reduceEq, false_and,
    and_false] at h
  case name.name => rw [h]
  case literal.literal => rw [Literal.eq_of_json h]
  case unary.unary op e op' e' => rw [UnaryOp.eq_of_name h.1, eq_of_json e e' h.2]
  case binary.binary op a b op' a' b' =>
    rw [BinaryOp.eq_of_name h.1, eq_of_json a a' h.2.1, eq_of_json b b' h.2.2]
  case call.call target args target' args' => rw [h.1, eq_of_jsons args args' h.2]
  case field.field e n e' n' => rw [eq_of_json e e' h.1, h.2]
  case index.index e i e' i' => rw [eq_of_json e e' h.1, eq_of_json i i' h.2]

theorem eq_of_jsons (es es' : List Expression) (h : jsons es = jsons es') : es = es' := by
  match es, es' with
  | [], [] => rfl
  | [], _ :: _ => cases h
  | _ :: _, [] => cases h
  | e :: es, e' :: es' =>
    obtain ⟨he, hes⟩ := List.cons.inj h
    rw [eq_of_json e e' he, eq_of_jsons es es' hes]

end

theorem json_ne_null (e : Expression) : e.json ≠ .null := by
  cases e <;> nofun

end Expression

namespace Payload

theorem eq_of_params {params params' : List Parameter}
    (h : (params.map fun p =>
        Json.object [("type_name", .string p.typeName), ("name", .string p.name)]) =
      params'.map fun p =>
        Json.object [("type_name", .string p.typeName), ("name", .string p.name)]) :
    params = params' := by
  apply List.map_injective_iff.mpr _ h
  intro p p' hp
  cases p
  cases p'
  cases hp
  rfl

theorem eq_of_strings {items items' : List String} (h : Json.strings items = Json.strings items') :
    items = items' := by
  apply List.map_injective_iff.mpr _ (Json.array.inj h)
  intro s s' hs
  exact Json.string.inj hs

/-- The fields alone do not tell the kind: a condition may be that of several kinds. -/
theorem eq_of_fields {p p' : Payload} (hkind : p.kind = p'.kind) (h : p.fields = p'.fields) :
    p = p' := by
  cases p <;> cases p' <;> cases hkind <;> simp only [fields, List.cons.injEq, Prod.mk.injEq,
    true_and, and_true, Json.string.injEq, Json.array.injEq] at h
  case compilationUnit.compilationUnit.refl =>
    rw [Json.eq_of_ofOption (fun _ _ => Json.string.inj) nofun h]
  case function.function.refl => rw [h.1, eq_of_params h.2.1, eq_of_strings h.2.2]
  case ifStatement.ifStatement.refl | elseIfClause.elseIfClause.refl | whileLoop.whileLoop.refl
      | callStatement.callStatement.refl | replyStatement.replyStatement.refl
      | throwStatement.throwStatement.refl =>
    rw [Expression.eq_of_json _ _ h]
  case assignment.assignment.refl =>
    rw [Expression.eq_of_json _ _ h.1, Expression.eq_of_json _ _ h.2]
  case variableDefinition.variableDefinition.refl =>
    rw [h.1, h.2.1, Json.eq_of_ofOption Expression.eq_of_json Expression.json_ne_null h.2.2]
  case returnStatement.returnStatement.refl => rw [Expression.eq_of_jsons _ _ h]
  case catchClause.catchClause.refl => rw [h.1, h.2]
  case comment.comment.refl => rw [h]
  all_goals rfl

theorem eq_of_json {p p' : Payload} (h : p.json = p'.json) : p = p' := by
  obtain ⟨hfirst, hfields⟩ := List.cons.inj (Json.object.inj h)
  exact eq_of_fields (NodeKind.eq_of_name (Json.string.inj (Prod.mk.inj hfirst).2)) hfields

end Payload

namespace Snapshot

mutual

/-- A node without children has fewer fields, so it is not taken for one with children. -/
theorem eq_of_json (s s' : Snapshot) (h : s.json = s'.json) : s = s' := by
  match s, s' with
  | node p [], node p' [] =>
    obtain ⟨hp, _⟩ := List.cons.inj (Json.object.inj h)
    rw [Payload.eq_of_json (Prod.mk.inj hp).2]
  | node p [], node p' (c' :: cs') =>
    obtain ⟨_, hnone⟩ := List.cons.inj (Json.object.inj h)
    cases hnone
  | node p (c :: cs), node p' [] =>
    obtain ⟨_, hnone⟩ := List.cons.inj (Json.object.inj h)
    cases hnone
  | node p (c :: cs), node p' (c' :: cs') =>
    obtain ⟨hp, hchildren⟩ := List.cons.inj (Json.object.inj h)
    have harray := Json.array.inj (Prod.mk.inj (List.cons.inj hchildren).1).2
    obtain ⟨hc, hcs⟩ := List.cons.inj harray
    rw [Payload.eq_of_json (Prod.mk.inj hp).2, eq_of_json c c' hc, eq_of_jsons cs cs' hcs]

theorem eq_of_jsons (ss ss' : List Snapshot) (h : jsons ss = jsons ss') : ss = ss' := by
  match ss, ss' with
  | [], [] => rfl
  | [], _ :: _ => cases h
  | _ :: _, [] => cases h
  | s :: ss, s' :: ss' =>
    obtain ⟨hs, hss⟩ := List.cons.inj h
    rw [eq_of_json s s' hs, eq_of_jsons ss ss' hss]

end

end Snapshot

/-! ## Dumps -/

theorem Json.Exact.eq_of_printed {j j' : Json} (h : j.Exact) (h' : j'.Exact)
    (htext : j.printed = j'.printed) : j = j' := by
  apply h.eq_of_pretty h'
  have hlist := congrArg String.toList htext
  rw [printed, printed, String.toList_append, String.toList_append] at hlist
  exact String.toList_inj.mp (List.append_cancel_right hlist)

theorem Response.exact_dump {file : String} {s : Snapshot} (h : s.json.Exact) :
    (dump file s).json.Exact := by
  simpa [json, head]

theorem Response.eq_of_dump {file file' : String} {s s' : Snapshot}
    (h : (dump file s).json = (dump file' s').json) : file = file' ∧ s.json = s'.json := by
  simp only [json, head, List.cons_append, List.nil_append, Json.object.injEq, List.cons.injEq,
    Prod.mk.injEq, Json.string.injEq, true_and, and_true] at h
  exact ⟨h.1, h.2.2⟩

namespace Tree

open CommandLine

/-- Snapshots of trees that runs lead to are equal when their written forms are, be they compact,
pretty, or printed as the answer to a dump, which tells the path of the file as well. -/
theorem dumps_lossless {t t' : Tree} (h : t.ReachableWith Payload.Made)
    (h' : t'.ReachableWith Payload.Made) {id id' : NodeId} {s s' : Snapshot}
    (hs : t.snapshot? id = some s) (hs' : t'.snapshot? id' = some s') :
    (s.json.compact = s'.json.compact → s = s') ∧
    (s.json.pretty = s'.json.pretty → s = s') ∧
    ∀ file file',
      (printed .json (.dump file s) = printed .json (.dump file' s') → file = file' ∧ s = s') ∧
      (printed .text (.dump file s) = printed .text (.dump file' s') → s = s') := by
  have hexact := (h.admissible_snapshot hs).exact_json
  have hexact' := (h'.admissible_snapshot hs').exact_json
  refine ⟨?_, ?_, ?_⟩
  · intro htext
    exact Snapshot.eq_of_json s s' (hexact.eq_of_compact hexact' htext)
  · intro htext
    exact Snapshot.eq_of_json s s' (hexact.eq_of_pretty hexact' htext)
  · intro file file'
    constructor
    · intro htext
      obtain ⟨hfile, hjson⟩ := Response.eq_of_dump
        ((Response.exact_dump hexact).eq_of_printed (Response.exact_dump hexact') htext)
      exact ⟨hfile, Snapshot.eq_of_json s s' hjson⟩
    · intro htext
      exact Snapshot.eq_of_json s s' (hexact.eq_of_printed hexact' htext)

/-- A returned literal null is told apart from a returned string that reads the same. -/
theorem null_dump_lossless :
    ∃ (t t' : Tree) (s s' : Snapshot), t.ReachableWith Payload.Made ∧
      t'.ReachableWith Payload.Made ∧
      t.snapshot? ⟨1, 0⟩ = some s ∧ t'.snapshot? ⟨1, 0⟩ = some s' ∧
      s.payload = .returnStatement [.literal .null] ∧
      s'.payload = .returnStatement [.literal (.string "null")] ∧
      s.json.compact ≠ s'.json.compact := by
  have hmade : ∀ values, (Form.returnStatement values).payload = .ok (.returnStatement values) →
      ((new none).after (.create (.returnStatement values))).ReachableWith Payload.Made := by
    intro values hvalues
    refine .after _ ?_ (.new none ⟨.compilationUnit none, rfl⟩)
    intro payload hpayload
    cases hpayload
    exact ⟨_, hvalues⟩
  have hsnapshot : ∀ values,
      ((new none).after (.create (.returnStatement values))).snapshot? ⟨1, 0⟩ =
        some (.node (.returnStatement values) []) := fun _ => rfl
  have hnull := hmade [.literal .null] rfl
  have hstring := hmade [.literal (.string "null")] rfl
  refine ⟨_, _, _, _, hnull, hstring, hsnapshot _, hsnapshot _, rfl, rfl, ?_⟩
  intro htext
  have hsame := (dumps_lossless hnull hstring (hsnapshot _) (hsnapshot _)).1 htext
  cases hsame

end Tree
end ProgramTree
