import ProgramTree.Proofs.Grammar.Scanning
import ProgramTree.Proofs.Tree.Runs
import ProgramTree.Walk.Basic

/-! # Identities along a run

A store stamps each value with the number of removals so far, so an identity
whose generation is over is not given out again: what it named is still there,
or is gone for good. A run of operations only stores, changes and removes
values, hence no identity ever names two nodes of a run, not even where a slot
is used again. -/

namespace ProgramTree

set_option autoImplicit false

theorem NodeId.toList_text (id : NodeId) :
    id.text.toList = 'n' :: (Nat.toDigits 10 id.slot ++
      if id.generation = 0 then [] else 'g' :: Nat.toDigits 10 id.generation) := by
  unfold text
  split <;> simp

/-- The written identity tells the slot and the generation. -/
theorem NodeId.text_injective {id other : NodeId} (h : id.text = other.text) : id = other := by
  have hdigits : ∀ n, ∀ c ∈ Nat.toDigits 10 n, c.isDigit = true := fun _ _ hc =>
    Nat.isDigit_of_mem_toDigits (by decide) (by decide) hc
  have hvalue : ∀ {m n}, Nat.toDigits 10 m = Nat.toDigits 10 n → m = n := by
    intro m n heq
    rw [← @Nat.ofDigitChars_ten_toDigits m, heq, Nat.ofDigitChars_ten_toDigits]
  have hend : ∀ n : Nat,
      StartsNot Char.isDigit (if n = 0 then [] else 'g' :: Nat.toDigits 10 n) := by
    intro n
    split
    · exact startsNot_nil
    · exact startsNot_cons.mpr rfl
  have htexts := congrArg String.toList h
  rw [toList_text, toList_text] at htexts
  have htail := (List.cons.inj htexts).2
  have hslot := congrArg (List.takeWhile Char.isDigit) htail
  have hgeneration := congrArg (List.dropWhile Char.isDigit) htail
  rw [takeWhile_run (hdigits _) (hend _), takeWhile_run (hdigits _) (hend _)] at hslot
  rw [dropWhile_run (hdigits _) (hend _), dropWhile_run (hdigits _) (hend _)] at hgeneration
  refine (id.eq_iff other).mpr ⟨hvalue hslot, ?_⟩
  by_cases hid : id.generation = 0 <;> by_cases hother : other.generation = 0
  · rw [hid, hother]
  · simp [hid, hother] at hgeneration
  · simp [hid, hother] at hgeneration
  · rw [if_neg hid, if_neg hother] at hgeneration
    exact hvalue (List.cons.inj hgeneration).2

namespace Arena

variable {α : Type} {a : Arena α} {id : NodeId}

/-- No value is of a generation to come. -/
def Dated (a : Arena α) : Prop :=
  ∀ id, a.contains id = true → id.generation ≤ a.generation

/-- The identity names a value, or its generation is over. -/
def Known (a : Arena α) (id : NodeId) : Prop :=
  a.contains id = true ∨ id.generation < a.generation

/-- The identity names no value and its generation is over. -/
def Spent (a : Arena α) (id : NodeId) : Prop :=
  a.contains id = false ∧ id.generation < a.generation

theorem dated_empty : (empty : Arena α).Dated := by
  intro id hid
  simp [contains, get?_empty] at hid

theorem Known.spent (h : a.Known id) (hdead : a.contains id = false) : a.Spent id := by
  refine ⟨hdead, h.resolve_left ?_⟩
  rw [hdead]
  exact Bool.false_ne_true

section Insert

variable (sound : a.Sound) (value : α)
include sound

/-- An identity that was given out is not given out again. -/
theorem Known.ne_insert (h : a.Known id) : (a.insert value).1 ≠ id := by
  rintro rfl
  rcases h with hlive | hpast
  · rw [contains, a.get?_insert_fresh sound] at hlive
    cases hlive
  · rw [insert_generation] at hpast
    exact Nat.lt_irrefl _ hpast

theorem Dated.insert (h : a.Dated) : (a.insert value).2.Dated := by
  intro id hid
  rw [contains_insert sound, Bool.or_eq_true, decide_eq_true_eq] at hid
  rw [generation_insert]
  rcases hid with rfl | hid
  · exact Nat.le_of_eq (a.insert_generation value)
  · exact h id hid

theorem Known.insert (h : a.Known id) : (a.insert value).2.Known id := by
  rw [Known, contains_insert sound, generation_insert]
  exact h.imp_left fun hlive => by simp [hlive]

theorem Spent.insert (h : a.Spent id) : (a.insert value).2.Spent id := by
  rw [Spent, contains_insert sound, generation_insert]
  have hne := Known.ne_insert sound value (Or.inr h.2)
  exact ⟨by simp [h.1, hne.symm], h.2⟩

end Insert

section Modify

variable (other : NodeId) (f : α → α)

theorem Dated.modify (h : a.Dated) : (a.modify other f).Dated := by
  intro id hid
  rw [contains_modify] at hid
  rw [generation_modify]
  exact h id hid

theorem Known.modify (h : a.Known id) : (a.modify other f).Known id := by
  rwa [Known, contains_modify, generation_modify]

theorem Spent.modify (h : a.Spent id) : (a.modify other f).Spent id := by
  rwa [Spent, contains_modify, generation_modify]

end Modify

section Remove

variable (freed : NodeId)

theorem contains_remove (id : NodeId) :
    (a.remove freed).contains id = (decide (id ≠ freed) && a.contains id) := by
  rw [contains, a.get?_remove freed]
  by_cases hid : id = freed <;> simp [hid, contains]

theorem generation_le_remove : a.generation ≤ (a.remove freed).generation := by
  unfold remove
  split
  · exact Nat.le_succ _
  · exact Nat.le_refl _

theorem generation_lt_remove (h : a.contains freed = true) :
    a.generation < (a.remove freed).generation := by
  rw [remove, if_pos h]
  exact Nat.lt_succ_self _

theorem Dated.remove (h : a.Dated) : (a.remove freed).Dated := by
  intro id hid
  rw [contains_remove, Bool.and_eq_true] at hid
  exact Nat.le_trans (h id hid.2) (generation_le_remove freed)

/-- What is removed is of a generation that is over with the removal. -/
theorem Known.remove (hdated : a.Dated) (h : a.Known id) : (a.remove freed).Known id := by
  rcases h with hlive | hpast
  · by_cases hid : id = freed
    · subst hid
      exact Or.inr (Nat.lt_of_le_of_lt (hdated id hlive) (generation_lt_remove id hlive))
    · exact Or.inl (by simp [contains_remove, hid, hlive])
  · exact Or.inr (Nat.lt_of_lt_of_le hpast (generation_le_remove freed))

theorem Spent.remove (h : a.Spent id) : (a.remove freed).Spent id :=
  ⟨by simp [contains_remove, h.1], Nat.lt_of_lt_of_le h.2 (generation_le_remove freed)⟩

end Remove

end Arena

namespace Tree

open Edit

variable {t t' : Tree} {id : NodeId}

/-- The trees that the operations of a run lead to from a tree. -/
inductive Leads (t : Tree) : Tree → Prop
  | refl : t.Leads t
  | after {t' : Tree} (operation : Operation) : t.Leads t' → t.Leads (t'.after operation)

section Runs

theorem Leads.reachable (h : t.Reachable) (hleads : t.Leads t') : t'.Reachable := by
  induction hleads with
  | refl => exact h
  | after operation _ ih => exact .after operation (fun _ _ => trivial) ih

/-- What every operation of a run keeps is kept by the run. -/
theorem Leads.keeps {P : Tree → Prop}
    (hafter : ∀ (t : Tree) operation, t.Reachable → P t → P (t.after operation)) (h : t.Reachable)
    (hleads : t.Leads t') (hstart : P t) : P t' := by
  induction hleads with
  | refl => exact hstart
  | after operation hleads ih => exact hafter _ operation (hleads.reachable h) ih

/-- What is kept of the store when values are stored, changed and removed is kept by every
operation. -/
theorem nodes_after {Q : Arena Node → Prop}
    (hinsert : ∀ a : Arena Node, a.Sound → ∀ value, Q a → Q (a.insert value).2)
    (hmodify : ∀ (a : Arena Node) other f, Q a → Q (a.modify other f))
    (hremove : ∀ (a : Arena Node) freed, Q a → Q (a.remove freed)) (operation : Operation)
    (h : t.Reachable) (hnodes : Q t.nodes) : Q (t.after operation).nodes :=
  (h.wellFormed.effect operation).keeps (P := fun t' => Q t'.nodes)
    (fun _ => hinsert t.nodes h.wellFormed.sound _) (fun t => hmodify t.nodes)
    (fun t => hremove t.nodes) hnodes

theorem Reachable.dated (h : t.Reachable) : t.nodes.Dated := by
  induction h with
  | new package _ => exact Arena.Dated.insert Arena.sound_empty _ Arena.dated_empty
  | after operation _ hreach ih =>
    apply nodes_after (Q := Arena.Dated) _ _ _ operation hreach ih
    · exact fun a sound value => Arena.Dated.insert sound value
    · exact fun a other f => Arena.Dated.modify other f
    · exact fun a freed => Arena.Dated.remove freed

/-- What was a node is one, or its generation is over. -/
theorem Leads.known (h : t.Reachable) (hleads : t.Leads t') (hlive : t.contains id = true) :
    t'.nodes.Known id := by
  have hkeep : ∀ (t : Tree) operation, t.Reachable → t.nodes.Dated ∧ t.nodes.Known id →
      (t.after operation).nodes.Dated ∧ (t.after operation).nodes.Known id := by
    intro t operation hreach hnodes
    apply nodes_after (Q := fun a => a.Dated ∧ a.Known id) _ _ _ operation hreach hnodes
    · exact fun a sound value ⟨hdated, hknown⟩ =>
        ⟨hdated.insert sound value, hknown.insert sound value⟩
    · exact fun a other f ⟨hdated, hknown⟩ => ⟨hdated.modify other f, hknown.modify other f⟩
    · exact fun a freed ⟨hdated, hknown⟩ => ⟨hdated.remove freed, hknown.remove freed hdated⟩
  exact (hleads.keeps hkeep h ⟨h.dated, Or.inl hlive⟩).2

/-- What is gone stays gone. -/
theorem Leads.spent (h : t.Reachable) (hleads : t.Leads t') (hspent : t.nodes.Spent id) :
    t'.nodes.Spent id := by
  refine hleads.keeps (P := fun t => t.nodes.Spent id) ?_ h hspent
  intro t operation hreach hnodes
  apply nodes_after (Q := fun a => a.Spent id) _ _ _ operation hreach hnodes
  · exact fun a sound value => Arena.Spent.insert sound value
  · exact fun a other f => Arena.Spent.modify other f
  · exact fun a freed => Arena.Spent.remove freed

end Runs

/-- The identities that an operation is asked of. -/
def Operation.named : Operation → List NodeId
  | .create _ | .sweep => []
  | .insertChild parent _ node | .appendChild parent node | .replaceChild parent _ node =>
    [parent, node]
  | .removeChild parent _ => [parent]
  | .moveChild fromParent _ toParent _ => [fromParent, toParent]
  | .update node _ | .discard node => [node]

/-- What an operation is refused for. A creation and a sweep are never refused. -/
def refusal? (t : Tree) : Operation → Option EditError
  | .create _ | .sweep => none
  | .insertChild parent index node => (insertChild parent index node).refusal? t
  | .appendChild parent node => (appendChild parent node).refusal? t
  | .removeChild parent index => (removeChild parent index).refusal? t
  | .replaceChild parent index node => (replaceChild parent index node).refusal? t
  | .moveChild fromParent fromIndex toParent toIndex =>
    (moveChild fromParent fromIndex toParent toIndex).refusal? t
  | .update node payload => (update node payload).refusal? t
  | .discard node => (discard node).refusal? t

/-- Nothing can be asked of the identity, whatever the operation and the other arguments. -/
structure Gone (t : Tree) (id : NodeId) : Prop where
  dead : t.contains id = false
  node : (nodeOf id).outcome t = (.error (.unknownNode id), t)
  snapshot : (snapshotOf id).outcome t = (.error (.unknownNode id), t)
  update : ∀ payload, (update id payload).outcome t = (.error (.unknownNode id), t)
  walk : ∀ {σ : Type} (active : List NodeId) (v : Visitor σ) (s : σ),
    t.walkFrom active id v s = (.error (.unknownNode id), ⟨active, ⟨0, 0⟩, s⟩)
  refused : ∀ operation : Operation, id ∈ operation.named →
    (t.refusal? operation).isSome = true ∧ t.after operation = t

section Dead

variable (hdead : t.contains id = false)
include hdead

theorem outcome_snapshotOf_of_dead : (snapshotOf id).outcome t = (.error (.unknownNode id), t) := by
  have hsnapshot : t.snapshot? id = none := by
    rw [snapshot?, branch?_of_dead hdead, Option.map_none]
  rw [snapshotOf, outcome_bind_of_ok (outcome_get t), hsnapshot]
  rfl

theorem walkFrom_of_dead {σ : Type} (active : List NodeId) (v : Visitor σ) (s : σ) :
    t.walkFrom active id v s = (.error (.unknownNode id), ⟨active, ⟨0, 0⟩, s⟩) := by
  rw [walkFrom, branch?_of_dead hdead]

/-- Each operation calls for the nodes that it names to be alive. -/
theorem refused_of_dead (hwf : t.WellFormed) (operation : Operation)
    (hnamed : id ∈ operation.named) :
    (t.refusal? operation).isSome = true ∧ t.after operation = t := by
  have hne : ∀ {other}, t.contains other = true → id ≠ other := by
    rintro other hlive rfl
    rw [hdead] at hlive
    cases hlive
  have hplace : ∀ {parent node : NodeId} {index : Nat}, (t.children parent)[index]? = some node →
      id ≠ parent := by
    intro parent node index hnode
    exact hne (hwf.live_of_children_getElem? hnode).1
  cases operation with
  | create payload => cases hnamed
  | insertChild parent index node =>
    apply (decides_insertChild hwf parent index node).refused
    intro can
    simp [Operation.named, hne can.parent_live, hne can.node_live] at hnamed
  | appendChild parent node =>
    apply (decides_appendChild hwf parent node).refused
    intro can
    simp [Operation.named, hne can.parent_live, hne can.node_live] at hnamed
  | removeChild parent index =>
    obtain ⟨node, hnode⟩ := t.exists_place parent index
    apply (decides_removeChild hwf parent index node hnode).refused
    intro hnode
    simp [Operation.named, hplace hnode] at hnamed
  | replaceChild parent index node =>
    obtain ⟨old, hold⟩ := t.exists_place parent index
    apply (decides_replaceChild hwf parent index old node hold).refused
    intro can
    have hlive : t.contains node = true := by simpa using can.insert.node_live
    simp [Operation.named, hplace can.place, hne hlive] at hnamed
  | moveChild fromParent fromIndex toParent toIndex =>
    obtain ⟨node, hnode⟩ := t.exists_place fromParent fromIndex
    apply (decides_moveChild hwf fromParent fromIndex toParent toIndex node hnode).refused
    intro can
    have hlive : t.contains toParent = true := by simpa using can.insert.parent_live
    simp [Operation.named, hplace can.place, hne hlive] at hnamed
  | update node payload =>
    have hid : node = id := by simpa [Operation.named, eq_comm] using hnamed
    have hpayload : t.payload? node = none := by
      rw [payload?, hid, (t.contains_eq_false_iff id).mp hdead]
      rfl
    apply (decides_update node payload payload (Or.inr hpayload)).refused
    intro hkind
    simp [Operation.named, hne (contains_of_kind? hkind)] at hnamed
  | discard node =>
    apply (decides_discard node).refused
    rintro ⟨hlive, _⟩
    simp [Operation.named, hne hlive] at hnamed
  | sweep => cases hnamed

theorem gone_of_dead (hwf : t.WellFormed) : t.Gone id where
  dead := hdead
  node := outcome_nodeOf_of_dead (by simp [hdead])
  snapshot := outcome_snapshotOf_of_dead hdead
  update := fun _ => outcome_bind_of_error (outcome_nodeOf_of_dead (by simp [hdead]))
  walk := walkFrom_of_dead hdead
  refused := refused_of_dead hdead hwf

end Dead

/-- Along a run no identity names two nodes. What a creation answers named nothing at any earlier
time, what is gone stays gone, and different identities are written differently. -/
theorem identities_not_reused (h : t.Reachable) (hleads : t.Leads t')
    (hlive : t.contains id = true) :
    (∀ payload, (t'.create payload).1 ≠ id) ∧
    (t'.contains id = false → ∀ t'', t'.Leads t'' → t''.Gone id) ∧
    (∀ other : NodeId, other.text = id.text → other = id) := by
  have hknown := hleads.known h hlive
  have hreach := hleads.reachable h
  refine ⟨?_, ?_, fun other => NodeId.text_injective⟩
  · intro payload
    exact hknown.ne_insert hreach.wellFormed.sound _
  · intro hdead t'' hleads'
    have hspent := hleads'.spent hreach (hknown.spent hdead)
    exact gone_of_dead hspent.1 (hleads'.reachable hreach).wellFormed

/-- The slot of a discarded node is used again under another identity. -/
theorem discarded_identity_not_reused :
    ∃ t t' : Tree, t.Reachable ∧ t.Leads t' ∧ t.contains ⟨1, 0⟩ = true ∧
      t'.contains ⟨1, 0⟩ = false ∧ (t'.create .breakStatement).1 = ⟨1, 1⟩ ∧
      (t'.create .breakStatement).1 ≠ ⟨1, 0⟩ ∧ t'.Gone ⟨1, 0⟩ := by
  have hreach : ((new none).after (.create .breakStatement)).Reachable :=
    .after _ (fun _ _ => trivial) (.new none trivial)
  have hleads : ((new none).after (.create .breakStatement)).Leads
      (((new none).after (.create .breakStatement)).after (.discard ⟨1, 0⟩)) := .after _ .refl
  have hlive : ((new none).after (.create .breakStatement)).contains ⟨1, 0⟩ = true := by decide
  have hfreed : ((new none).after (.create .breakStatement)).after (.discard ⟨1, 0⟩) =
      ((new none).after (.create .breakStatement)).free ⟨1, 0⟩ := by
    change (freeStack _ [⟨1, 0⟩]).2 = _
    rw [freeStack_cons_of_live rfl]
    simp [freeStack]
  have hdead : (((new none).after (.create .breakStatement)).after (.discard ⟨1, 0⟩)).contains
      ⟨1, 0⟩ = false := by
    rw [hfreed]
    decide
  have hagain : ((((new none).after (.create .breakStatement)).after
      (.discard ⟨1, 0⟩)).create .breakStatement).1 = ⟨1, 1⟩ := by
    rw [hfreed]
    decide
  obtain ⟨hfresh, hgone, _⟩ := identities_not_reused hreach hleads hlive
  exact ⟨_, _, hreach, hleads, hlive, hdead, hagain, hfresh _, hgone hdead _ .refl⟩

end Tree
end ProgramTree
