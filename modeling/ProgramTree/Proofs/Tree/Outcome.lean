import ProgramTree.Proofs.Tree.Links

/-! # The outcome of an edit

An edit either does what is asked for or refuses and leaves the tree as it was.
The judgement `Decides` says both at once: on a tree an edit accepts exactly
under a condition, and then gives the stated answer and leaves the stated tree.
Checks are edits that leave the tree as it was either way, and an edit that
runs checks first inherits their refusals. -/

namespace ProgramTree

set_option autoImplicit false

namespace Edit

variable {α β : Type}

/-- The answer of an edit and the tree that it leaves. -/
def outcome (x : Edit α) (t : Tree) : Except EditError α × Tree :=
  x.run.run t

@[simp] theorem outcome_pure (a : α) (t : Tree) : (pure a : Edit α).outcome t = (.ok a, t) := rfl

@[simp] theorem outcome_throw (e : EditError) (t : Tree) :
    (throw e : Edit α).outcome t = (.error e, t) := rfl

theorem outcome_bind (x : Edit α) (f : α → Edit β) (t : Tree) :
    (x >>= f).outcome t =
      match x.outcome t with
      | (.ok a, t') => (f a).outcome t'
      | (.error e, t') => (.error e, t') := by
  unfold outcome
  rw [ExceptT.run_bind, StateT.run_bind]
  cases h : (ExceptT.run x).run t with
  | mk answer t' => cases answer <;> rfl

theorem outcome_bind_of_ok {x : Edit α} {f : α → Edit β} {t t' : Tree} {a : α}
    (h : x.outcome t = (.ok a, t')) : (x >>= f).outcome t = (f a).outcome t' := by
  rw [outcome_bind, h]

theorem outcome_bind_of_error {x : Edit α} {f : α → Edit β} {t t' : Tree} {e : EditError}
    (h : x.outcome t = (.error e, t')) : (x >>= f).outcome t = (.error e, t') := by
  rw [outcome_bind, h]

@[simp] theorem outcome_get (t : Tree) : (get : Edit Tree).outcome t = (.ok t, t) := rfl

@[simp] theorem outcome_set (t t' : Tree) : (set t' : Edit PUnit).outcome t = (.ok ⟨⟩, t') := rfl

/-- What an edit is refused for. -/
def refusal? (x : Edit α) (t : Tree) : Option EditError :=
  match (x.outcome t).1 with
  | .ok _ => none
  | .error e => some e

/-- The edit accepts exactly under the condition, and then answers and leaves what is stated;
otherwise it leaves the tree as it was. -/
structure Decides (x : Edit α) (t : Tree) (condition : Prop) (a : α) (t' : Tree) : Prop where
  accept : condition → x.outcome t = (.ok a, t')
  refuse : ¬ condition → ∃ e, x.outcome t = (.error e, t)

namespace Decides

variable {x : Edit α} {f : α → Edit β} {t t' : Tree} {a : α} {b : β} {first whole : Prop}

/-- A check that the whole condition calls for. -/
theorem bind (hx : x.Decides t first a t) (hf : first → (f a).Decides t whole b t')
    (hfirst : whole → first) : (x >>= f).Decides t whole b t' := by
  by_cases h : first
  · have hok : (x >>= f).outcome t = (f a).outcome t := outcome_bind_of_ok (hx.accept h)
    constructor
    · intro hwhole
      rw [hok]
      exact (hf h).accept hwhole
    · intro hnot
      rw [hok]
      exact (hf h).refuse hnot
  · obtain ⟨e, he⟩ := hx.refuse h
    constructor
    · intro hwhole
      exact absurd (hfirst hwhole) h
    · intro _
      exact ⟨e, outcome_bind_of_error he⟩

theorem of_error {e : EditError} (h : x.outcome t = (.error e, t)) (hnot : ¬ whole) :
    x.Decides t whole a t' :=
  ⟨fun hwhole => absurd hwhole hnot, fun _ => ⟨e, h⟩⟩

theorem of_ok (h : x.outcome t = (.ok a, t')) (hwhole : whole) : x.Decides t whole a t' :=
  ⟨fun _ => h, fun hnot => absurd hwhole hnot⟩

/-- What comes after a step that succeeds and leaves the tree as it was. -/
theorem after (hx : x.outcome t = (.ok a, t)) (hf : (f a).Decides t whole b t') :
    (x >>= f).Decides t whole b t' :=
  bind (of_ok hx trivial) (fun _ => hf) fun _ => trivial

/-- Of the two ways in which an edit ends each tells whether the condition holds. -/
theorem cases (h : x.Decides t whole a t') :
    whole ∧ x.outcome t = (.ok a, t') ∨ ¬ whole ∧ ∃ e, x.outcome t = (.error e, t) := by
  by_cases hwhole : whole
  · exact Or.inl ⟨hwhole, h.accept hwhole⟩
  · exact Or.inr ⟨hwhole, h.refuse hwhole⟩

/-- What holds before an edit and of the tree that it leaves on success holds after it. -/
theorem keeps {P : Tree → Prop} (h : x.Decides t whole a t') (hbefore : P t)
    (hsuccess : whole → P t') : P (x.outcome t).2 := by
  rcases h.cases with ⟨hwhole, hok⟩ | ⟨_, e, herror⟩
  · rw [hok]
    exact hsuccess hwhole
  · rwa [herror]

theorem refused (h : x.Decides t whole a t') (hnot : ¬ whole) :
    (x.refusal? t).isSome = true ∧ (x.outcome t).2 = t := by
  obtain ⟨e, he⟩ := h.refuse hnot
  rw [refusal?, he]
  exact ⟨rfl, rfl⟩

end Decides

section Checks

variable (t : Tree)

theorem outcome_nodeOf (id : NodeId) :
    (nodeOf id).outcome t =
      match t.node? id with
      | some node => (.ok node, t)
      | none => (.error (.unknownNode id), t) := by
  unfold nodeOf
  rw [outcome_bind, outcome_get]
  cases h : t.node? id <;> simp [h]

variable {t}

theorem outcome_nodeOf_of_live {id : NodeId} (h : t.contains id = true) :
    ∃ payload, t.payload? id = some payload ∧
      (nodeOf id).outcome t = (.ok ⟨payload, t.parent? id, t.children id⟩, t) := by
  obtain ⟨payload, hpayload, hnode⟩ := Tree.node?_eq_some h
  exact ⟨payload, hpayload, by rw [outcome_nodeOf, hnode]⟩

theorem outcome_nodeOf_of_dead {id : NodeId} (h : t.contains id ≠ true) :
    (nodeOf id).outcome t = (.error (.unknownNode id), t) := by
  rw [outcome_nodeOf, (t.contains_eq_false_iff id).mp (Bool.not_eq_true _ ▸ h)]

theorem decides_nodeOf (id : NodeId) : ∃ payload,
    (nodeOf id).Decides t (t.contains id = true) ⟨payload, t.parent? id, t.children id⟩ t := by
  by_cases hlive : t.contains id = true
  · obtain ⟨payload, _, hnode⟩ := outcome_nodeOf_of_live hlive
    exact ⟨payload, .of_ok hnode hlive⟩
  · exact ⟨.breakStatement, .of_error (outcome_nodeOf_of_dead hlive) hlive⟩

theorem outcome_write {id : NodeId} (h : t.contains id = true) (f : Node → Node) :
    (write id f).outcome t = (.ok ⟨⟩, t.modifyNode id f) := by
  obtain ⟨payload, _, hnode⟩ := outcome_nodeOf_of_live h
  exact outcome_bind_of_ok hnode

theorem outcome_kindOf {id : NodeId} {kind : NodeKind} (h : t.kind? id = some kind) :
    (kindOf id).outcome t = (.ok kind, t) := by
  obtain ⟨payload, hpayload, hnode⟩ := outcome_nodeOf_of_live (Tree.contains_of_kind? h)
  have hkind : payload.kind = kind := by simpa [Tree.kind?, hpayload] using h
  rw [kindOf, outcome_bind_of_ok hnode, ← hkind]
  rfl

theorem outcome_kindsOf {ids : List NodeId} (h : ∀ id ∈ ids, (t.kind? id).isSome) :
    (kindsOf ids).outcome t = (.ok (t.kindsOf ids), t) := by
  induction ids with
  | nil => rfl
  | cons id ids ih =>
    obtain ⟨kind, hkind⟩ := Option.isSome_iff_exists.mp (h id List.mem_cons_self)
    have hrest := ih fun other hother => h other (List.mem_cons_of_mem id hother)
    rw [kindsOf, outcome_bind_of_ok (outcome_kindOf hkind), outcome_bind_of_ok hrest]
    simp [Tree.kindsOf, hkind]

theorem outcome_childKinds (hwf : t.WellFormed) {parent : NodeId}
    (h : t.contains parent = true) :
    (childKinds parent).outcome t = (.ok (t.kindsOf (t.children parent)), t) := by
  obtain ⟨payload, _, hnode⟩ := outcome_nodeOf_of_live h
  rw [childKinds, outcome_bind_of_ok hnode]
  exact outcome_kindsOf (hwf.kind?_child_isSome parent)

theorem outcome_childAt {parent : NodeId} {index : Nat} {node : NodeId}
    (h : (t.children parent)[index]? = some node) :
    (childAt parent index).outcome t = (.ok node, t) := by
  obtain ⟨payload, _, hnode⟩ := outcome_nodeOf_of_live
    (Tree.contains_of_mem_children (List.mem_of_getElem? h))
  rw [childAt, outcome_bind_of_ok hnode]
  simp [h]

theorem outcome_childAt_of_none {parent : NodeId} {index : Nat}
    (h : (t.children parent)[index]? = none) :
    ∃ e, (childAt parent index).outcome t = (.error e, t) := by
  by_cases hlive : t.contains parent = true
  · obtain ⟨payload, _, hnode⟩ := outcome_nodeOf_of_live hlive
    refine ⟨.indexOutOfBounds parent index (t.children parent).length, ?_⟩
    rw [childAt, outcome_bind_of_ok hnode]
    simp [h]
  · exact ⟨_, outcome_bind_of_error (outcome_nodeOf_of_dead hlive)⟩

/-- Of a place it is enough to know which node is there if there is one. -/
theorem decides_childAt {parent : NodeId} {index : Nat} {node : NodeId}
    (h : (t.children parent)[index]? = some node ∨ (t.children parent)[index]? = none) :
    (childAt parent index).Decides t ((t.children parent)[index]? = some node) node t := by
  rcases h with hnode | hnone
  · exact .of_ok (outcome_childAt hnode) hnode
  · obtain ⟨e, he⟩ := outcome_childAt_of_none hnone
    exact .of_error he (by simp [hnone])

theorem decides_ensure (condition : Bool) (e : EditError) :
    (ensure condition e).Decides t (condition = true) ⟨⟩ t := by
  cases condition
  · exact .of_error rfl Bool.false_ne_true
  · exact .of_ok rfl rfl

theorem decides_checkInsertable (node : NodeId) (use : RootUse) :
    (checkInsertable node use).Decides t
      (t.contains node = true ∧ node ≠ t.root ∧ t.parent? node = none) ⟨⟩ t := by
  unfold checkInsertable
  obtain ⟨payload, hnode⟩ := decides_nodeOf (t := t) node
  refine .bind hnode (fun hlive => ?_) (fun h => h.1)
  refine .after (outcome_get t) ?_
  refine .bind (decides_ensure _ _) (fun hroot => ?_) (fun h => by simpa using h.2.1)
  have hne : node ≠ t.root := by simpa using hroot
  cases hparent : t.parent? node with
  | none => exact .of_ok rfl ⟨hlive, hne, rfl⟩
  | some parent => exact .of_error (outcome_throw _ t) (by simp)

theorem decides_checkAcyclic (hwf : t.WellFormed) (node parent : NodeId) :
    (checkAcyclic node parent).Decides t (¬ t.Within parent node) ⟨⟩ t := by
  unfold checkAcyclic
  refine .after (outcome_get t) ?_
  have hcondition : (!t.isWithin parent node) = true ↔ ¬ t.Within parent node := by
    rw [Bool.not_eq_true', ← Bool.not_eq_true, Tree.isWithin_iff hwf]
  have h := decides_ensure (t := t) (!t.isWithin parent node) (.cycle node parent)
  exact ⟨fun hout => h.accept (hcondition.mpr hout), fun hin => h.refuse (hcondition.not.mpr hin)⟩

theorem decides_checkLayout {parent : NodeId} {kind : NodeKind} (h : t.kind? parent = some kind)
    (kinds : List NodeKind) :
    (checkLayout parent kinds).Decides t (Layout.check kind kinds = .ok ()) ⟨⟩ t := by
  unfold checkLayout
  refine .after (outcome_kindOf h) ?_
  cases hcheck : Layout.check kind kinds with
  | ok => exact .of_ok rfl rfl
  | error fault => exact .of_error (outcome_throw _ t) (by simp)

end Checks

end Edit
end ProgramTree
