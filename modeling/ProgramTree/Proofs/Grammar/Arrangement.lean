import ProgramTree.Proofs.Grammar.Program
import ProgramTree.Proofs.Layout

/-! # The children that the grammar gives

The rules of the grammar say which kinds of children a node has and in which
order. They say less than a derivation and more than the layouts of the tree: a
layout may leave out the `catch` of a `try`. -/

namespace ProgramTree

set_option autoImplicit false

namespace Grammar

/-- The kinds of the children that a node of the kind can have in a program. -/
inductive Arranged : NodeKind → List NodeKind → Prop
  | leaf {kind : NodeKind} : kind.hasBody = false → Arranged kind []
  | body {kind : NodeKind} {kinds : List NodeKind} : kind.hasBody = true → kind ≠ .tryStatement →
      (∀ child ∈ kinds, child.isStatement = true) → Arranged kind kinds
  | ifStatement {statements elseIfs last : List NodeKind} :
      (∀ child ∈ statements, child.isStatement = true) →
      (∀ child ∈ elseIfs, child = .elseIfClause) → last = [] ∨ last = [.elseClause] →
      Arranged .ifStatement (statements ++ (elseIfs ++ last))
  | tryStatement {statements : List NodeKind} :
      (∀ child ∈ statements, child.isStatement = true) →
      Arranged .tryStatement (statements ++ [.catchClause])
  | items {kinds : List NodeKind} : (∀ child ∈ kinds, child = .function ∨ child = .comment) →
      Arranged .compilationUnit kinds

namespace Arranged

variable {kind : NodeKind} {kinds : List NodeKind}

/-- The tree accepts the children that the grammar gives. -/
theorem check (h : Arranged kind kinds) : Layout.check kind kinds = .ok () := by
  cases h with
  | leaf _ => exact Layout.check_nil kind
  | body hbody _ hstatements => exact Layout.check_of_statements hbody hstatements
  | ifStatement hstatements helseIfs hlast =>
    exact Layout.check_of_clauses_if hstatements helseIfs hlast
  | tryStatement hstatements => exact Layout.check_of_clauses_try hstatements (Or.inr rfl)
  | items hitems => exact Layout.check_of_items hitems

theorem mem_catchClause (h : Arranged .tryStatement kinds) : .catchClause ∈ kinds := by
  cases h with
  | leaf hbody => cases hbody
  | body _ htry _ => exact absurd rfl htry
  | tryStatement _ => exact List.mem_append_right _ List.mem_cons_self

end Arranged

end Grammar

/-- Each node of the draft has children that the grammar can give it. -/
inductive Draft.Arranged : Draft → Prop
  | node {start : Nat} {form : Form} {children : List Draft} :
      Grammar.Arranged form.kind (children.map fun c => c.form.kind) →
      (∀ c ∈ children, c.Arranged) → (Draft.node start form children).Arranged

namespace Grammar

/-- The drafts of a part are arranged, and of the kinds that may stand there. -/
def Part.Arranged : Part → Prop
  | node d => d.Arranged
  | list allowed ds => ∀ d ∈ ds, allowed d.form.kind = true ∧ d.Arranged
  | body ds => ∀ d ∈ ds, d.form.kind.isStatement = true ∧ d.Arranged

section Parts

variable {form : Form} {ds : List Draft}

theorem arranged_leaf (start : Nat) (hbody : form.kind.hasBody = false) :
    (Draft.node start form []).Arranged :=
  .node (.leaf hbody) (List.forall_mem_nil _)

theorem kinds_of_list {allowed : NodeKind → Bool} (h : (Part.list allowed ds).Arranged) :
    ∀ kind ∈ ds.map (fun d => d.form.kind), allowed kind = true := by
  intro kind hkind
  obtain ⟨d, hd, rfl⟩ := List.mem_map.mp hkind
  exact (h d hd).1

theorem kinds_of_body (h : (Part.body ds).Arranged) :
    ∀ kind ∈ ds.map (fun d => d.form.kind), kind.isStatement = true :=
  kinds_of_list (h : (Part.list NodeKind.isStatement ds).Arranged)

theorem arranged_body (start : Nat) (hbody : form.kind.hasBody = true)
    (htry : form.kind ≠ .tryStatement) (h : (Part.body ds).Arranged) :
    (Draft.node start form ds).Arranged :=
  .node (.body hbody htry (kinds_of_body h)) fun d hd => (h d hd).2

/-- A list of drafts of one kind that is no longer than the one. -/
theorem map_kind_of_le_one {kind : NodeKind} (h : (Part.list (· == kind) ds).Arranged)
    (hlength : ds.length ≤ 1) :
    ds.map (fun d => d.form.kind) = [] ∨ ds.map (fun d => d.form.kind) = [kind] := by
  match ds, hlength with
  | [], _ => exact Or.inl rfl
  | [d], _ => exact Or.inr (congrArg (· :: []) (beq_iff_eq.mp (h d List.mem_cons_self).1))

/-- What stands in a text as a program is arranged by the rules that it stands by. -/
theorem Stands.arranged {part : Part} {text rest : List Char} (h : Stands part text rest) :
    part.Arranged := by
  induction h with
  | nil => exact List.forall_mem_nil _
  | cons _ _ hkind _ ih ih' => exact List.forall_mem_cons.mpr ⟨⟨hkind, ih⟩, ih'⟩
  | body _ _ _ ih => exact ih
  | block _ _ ih => exact arranged_body _ rfl nofun ih
  | @ifStatement e ds elseIfs last _ _ _ _ _ _ _ _ _ _ _ hlength ih ih' ih'' =>
    refine .node ?_ fun d hd => ?_
    · rw [List.map_append, List.map_append, List.append_assoc]
      exact .ifStatement (kinds_of_body ih)
        (fun kind hkind => beq_iff_eq.mp (kinds_of_list ih' kind hkind))
        (map_kind_of_le_one ih'' hlength)
    · rcases List.mem_append.mp hd with hd | hd
      · exact (List.mem_append.mp hd).elim (fun hd => (ih d hd).2) fun hd => (ih' d hd).2
      · exact (ih'' d hd).2
  | elseIfClause _ _ _ _ _ ih => exact arranged_body _ rfl nofun ih
  | elseClause _ _ ih => exact arranged_body _ rfl nofun ih
  | whileLoop _ _ _ ih => exact arranged_body _ rfl nofun ih
  | @tryStatement ds last _ _ _ _ _ _ _ hlength ih ih' =>
    refine .node ?_ fun d hd => ?_
    · obtain ⟨c, rfl⟩ := List.length_eq_one_iff.mp hlength
      have hcatch : c.form.kind = .catchClause := beq_iff_eq.mp (ih' c List.mem_cons_self).1
      rw [List.map_append, List.map_singleton, hcatch]
      exact .tryStatement (kinds_of_body ih)
    · exact (List.mem_append.mp hd).elim (fun hd => (ih d hd).2) fun hd => (ih' d hd).2
  | catchClause _ _ _ _ _ ih => exact arranged_body _ rfl nofun ih
  | function _ _ _ _ _ _ _ _ ih => exact arranged_body _ rfl nofun ih
  | @compilationUnit _ ds _ _ _ _ _ _ _ ih =>
    refine .node (.items fun kind hkind => ?_) fun d hd => (ih d hd).2
    simpa using kinds_of_list ih kind hkind
  | jump hjump _ _ => cases hjump <;> exact arranged_leaf _ rfl
  | valued hvalued _ _ _ => cases hvalued <;> exact arranged_leaf _ rfl
  | _ => exact arranged_leaf _ rfl

end Parts

end Grammar

end ProgramTree
