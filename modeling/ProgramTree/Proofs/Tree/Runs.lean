import ProgramTree.Proofs.Tree.Edits
import ProgramTree.Proofs.Tree.Freeing

/-! # Runs of operations

An operation is asked of a tree with any identities, live or not, and may be
refused. Every operation keeps a tree well-formed, so every tree that a run
from a new one leads to is well-formed. Runs can be restricted in the payloads
that they bring in. -/

namespace ProgramTree.Tree

set_option autoImplicit false

open Edit

inductive Operation
  | create (payload : Payload)
  | insertChild (parent : NodeId) (index : Nat) (node : NodeId)
  | appendChild (parent node : NodeId)
  | removeChild (parent : NodeId) (index : Nat)
  | replaceChild (parent : NodeId) (index : Nat) (node : NodeId)
  | moveChild (fromParent : NodeId) (fromIndex : Nat) (toParent : NodeId) (toIndex : Nat)
  | update (node : NodeId) (payload : Payload)
  | discard (node : NodeId)
  | sweep

/-- The payload that an operation brings in, if it does. -/
def Operation.payload? : Operation → Option Payload
  | .create payload | .update _ payload => some payload
  | _ => none

/-- The tree after an operation, whether it succeeded or not. -/
def after (t : Tree) : Operation → Tree
  | .create payload => (t.create payload).2
  | .insertChild parent index node => ((insertChild parent index node).outcome t).2
  | .appendChild parent node => ((appendChild parent node).outcome t).2
  | .removeChild parent index => ((removeChild parent index).outcome t).2
  | .replaceChild parent index node => ((replaceChild parent index node).outcome t).2
  | .moveChild fromParent fromIndex toParent toIndex =>
    ((moveChild fromParent fromIndex toParent toIndex).outcome t).2
  | .update node payload => ((update node payload).outcome t).2
  | .discard node => ((discard node).outcome t).2
  | .sweep => t.sweep.2

/-- The trees that runs lead to when every payload brought in is admissible. -/
inductive ReachableWith (admissible : Payload → Prop) : Tree → Prop
  | new (package : Option String) : admissible (.compilationUnit package) →
      ReachableWith admissible (new package)
  | after {t : Tree} (operation : Operation) :
      (∀ payload, operation.payload? = some payload → admissible payload) →
      ReachableWith admissible t → ReachableWith admissible (t.after operation)

/-- The trees that runs lead to. -/
def Reachable (t : Tree) : Prop :=
  t.ReachableWith fun _ => True

theorem ReachableWith.mono {admissible admissible' : Payload → Prop} {t : Tree}
    (himp : ∀ payload, admissible payload → admissible' payload)
    (h : t.ReachableWith admissible) : t.ReachableWith admissible' := by
  induction h with
  | new package hpackage => exact .new package (himp _ hpackage)
  | after operation hpayload _ ih =>
    exact .after operation (fun payload hsome => himp payload (hpayload payload hsome)) ih

theorem ReachableWith.reachable {admissible : Payload → Prop} {t : Tree}
    (h : t.ReachableWith admissible) : t.Reachable :=
  h.mono fun _ _ => trivial

/-- A run is a list of operations, each on the tree that the one before it leaves. -/
theorem ReachableWith.run {admissible : Payload → Prop} {t : Tree}
    (h : t.ReachableWith admissible) (operations : List Operation)
    (hpayloads : ∀ operation ∈ operations, ∀ payload, operation.payload? = some payload →
      admissible payload) : (operations.foldl Tree.after t).ReachableWith admissible := by
  induction operations generalizing t with
  | nil => exact h
  | cons operation _ ih =>
    obtain ⟨hfirst, hrest⟩ := List.forall_mem_cons.mp hpayloads
    exact ih (.after operation hfirst h) hrest

theorem Reachable.run {t : Tree} (h : t.Reachable) (operations : List Operation) :
    (operations.foldl after t).Reachable :=
  ReachableWith.run h operations fun _ _ _ _ => trivial

theorem reachable_new (package : Option String) : (new package).Reachable :=
  .new package trivial

section Create

variable {t : Tree} (sound : t.nodes.Sound) (payload : Payload) (id : NodeId)
include sound

/-- A new node has no parent, as the dead identity that it takes had none. -/
theorem parent?_create : (t.create payload).2.parent? id = t.parent? id := by
  simp only [parent?, node?_create id sound payload]
  split
  · rename_i he
    rw [he, node?_create_fresh sound payload]
    rfl
  · rfl

theorem children_create : (t.create payload).2.children id = t.children id := by
  simp only [children, node?_create id sound payload]
  split
  · rename_i he
    rw [he, node?_create_fresh sound payload]
    rfl
  · rfl

theorem payload?_create :
    (t.create payload).2.payload? id =
      if id = (t.create payload).1 then some payload else t.payload? id := by
  simp only [payload?, node?_create id sound payload]
  split <;> rfl

variable {id} in
theorem ne_create_of_live (hlive : t.contains id = true) : id ≠ (t.create payload).1 := by
  rintro rfl
  obtain ⟨node, hnode⟩ := (t.contains_iff _).mp hlive
  rw [node?_create_fresh sound payload] at hnode
  cases hnode

theorem node?_create_of_live {id : NodeId} (hlive : t.contains id = true) :
    (t.create payload).2.node? id = t.node? id := by
  rw [node?_create id sound payload, if_neg (ne_create_of_live sound payload hlive)]

end Create

/-- The place of a child list, whether it is there or not. -/
theorem exists_place (t : Tree) (parent : NodeId) (index : Nat) :
    ∃ node, (t.children parent)[index]? = some node ∨ (t.children parent)[index]? = none := by
  cases hplace : (t.children parent)[index]? with
  | none => exact ⟨t.root, Or.inr rfl⟩
  | some node => exact ⟨node, Or.inl rfl⟩

/-- What an operation does to a tree: nothing, when it is refused, or what it is granted for. -/
inductive Effect (t : Tree) : Operation → Tree → Prop
  | refused (operation : Operation) : t.Effect operation t
  | created (payload : Payload) : t.Effect (.create payload) (t.create payload).2
  | inserted {parent node : NodeId} {index : Nat} : t.CanInsert parent index node →
      t.Effect (.insertChild parent index node) (t.link parent index node)
  | appended {parent node : NodeId} : t.CanInsert parent (t.children parent).length node →
      t.Effect (.appendChild parent node) (t.link parent (t.children parent).length node)
  | removed {parent node : NodeId} {index : Nat} : (t.children parent)[index]? = some node →
      t.Effect (.removeChild parent index) (t.unlink parent index node)
  | replaced {parent old node : NodeId} {index : Nat} : t.CanReplace parent index old node →
      t.Effect (.replaceChild parent index node)
        ((t.unlink parent index old).link parent index node)
  | moved {fromParent toParent node : NodeId} {fromIndex toIndex : Nat} :
      t.CanMove fromParent fromIndex toParent toIndex node →
      t.Effect (.moveChild fromParent fromIndex toParent toIndex)
        ((t.unlink fromParent fromIndex node).link toParent toIndex node)
  | updated {node : NodeId} {payload : Payload} : t.kind? node = some payload.kind →
      t.Effect (.update node payload) (t.setPayload node payload)
  | discarded {node : NodeId} :
      t.contains node = true ∧ node ≠ t.root ∧ t.parent? node = none →
      t.Effect (.discard node) (t.freeBranch node).2
  | swept : t.Effect .sweep t.sweep.2

/-- An operation does nothing else, and each case says what it was granted for. -/
theorem WellFormed.effect {t : Tree} (h : t.WellFormed) (operation : Operation) :
    t.Effect operation (t.after operation) := by
  have hrefused := Effect.refused (t := t) operation
  cases operation with
  | create payload => exact .created payload
  | insertChild parent index node =>
    exact (decides_insertChild h parent index node).keeps hrefused .inserted
  | appendChild parent node => exact (decides_appendChild h parent node).keeps hrefused .appended
  | removeChild parent index =>
    obtain ⟨node, hplace⟩ := t.exists_place parent index
    exact (decides_removeChild h parent index node hplace).keeps hrefused .removed
  | replaceChild parent index node =>
    obtain ⟨old, hplace⟩ := t.exists_place parent index
    exact (decides_replaceChild h parent index old node hplace).keeps hrefused .replaced
  | moveChild fromParent fromIndex toParent toIndex =>
    obtain ⟨node, hplace⟩ := t.exists_place fromParent fromIndex
    exact (decides_moveChild h fromParent fromIndex toParent toIndex node hplace).keeps hrefused
      .moved
  | update node payload =>
    cases hold : t.payload? node with
    | some old => exact (decides_update node old payload (Or.inl hold)).keeps hrefused .updated
    | none => exact (decides_update node payload payload (Or.inr hold)).keeps hrefused .updated
  | discard node => exact (decides_discard node).keeps hrefused .discarded
  | sweep => exact .swept

/-- What storing, changing and removing a single node keep is kept by every operation. -/
theorem Effect.keeps {t t' : Tree} {operation : Operation} {P : Tree → Prop}
    (hcreate : ∀ payload, P t → P (t.create payload).2)
    (hwrite : ∀ t id f, P t → P (t.modifyNode id f)) (hfree : ∀ t id, P t → P (t.free id))
    (heffect : t.Effect operation t') (h : P t) : P t' := by
  have hlink : ∀ t parent index node, P t → P (t.link parent index node) :=
    fun t parent index node h => hwrite _ _ _ (hwrite _ _ _ h)
  have hunlink : ∀ t parent index node, P t → P (t.unlink parent index node) :=
    fun t parent index node h => hwrite _ _ _ (hwrite _ _ _ h)
  cases heffect with
  | refused => exact h
  | created payload => exact hcreate payload h
  | inserted | appended => exact hlink _ _ _ _ h
  | removed => exact hunlink _ _ _ _ h
  | replaced | moved => exact hlink _ _ _ _ (hunlink _ _ _ _ h)
  | updated => exact hwrite _ _ _ h
  | discarded => exact freeStack_keeps hfree t [_] h
  | swept => exact sweep_keeps hfree t h

namespace WellFormed

theorem new (package : Option String) : (new package).WellFormed := by
  have hnode := fun id => node?_new id package
  have hparent : ∀ id, (Tree.new package).parent? id = none := by
    intro id
    simp only [parent?, hnode]
    split <;> rfl
  have hchildren : ∀ id, (Tree.new package).children id = [] := by
    intro id
    simp only [children, hnode]
    split <;> rfl
  refine ⟨?_, ?_, hparent _, ?_, ?_, ?_, fun id => .top (hparent id), ?_⟩
  · exact Arena.empty.sound_insert Arena.sound_empty _
  · exact (contains_iff _ _).mpr ⟨_, by rw [hnode, if_pos rfl]⟩
  · intro child parent hchild
    simp [hchildren] at hchild
  · intro child parent
    simp [hparent, hchildren]
  · intro parent
    simp [hchildren]
  · intro parent kind _
    rw [hchildren]
    exact Layout.check_nil kind

variable {t : Tree} (h : t.WellFormed)
include h

theorem create (payload : Payload) : (t.create payload).2.WellFormed := by
  have hlive : ∀ {id}, t.contains id = true → (t.create payload).2.contains id = true := by
    intro id hlive
    rw [(views_congr (node?_create_of_live h.sound payload hlive)).1, hlive]
  refine ⟨t.nodes.sound_insert h.sound _, hlive h.root_live, ?_, ?_, ?_, ?_, ?_, ?_⟩
  · rw [parent?_create h.sound]
    exact h.root_top
  · intro child parent hchild
    rw [children_create h.sound] at hchild
    exact hlive (h.child_live hchild)
  · intro child parent
    rw [parent?_create h.sound, children_create h.sound]
    exact h.parent_iff
  · intro parent
    rw [children_create h.sound]
    exact h.children_nodup parent
  · exact fun id => (h.grounded id).mono fun _ _ hparent => by
      rwa [parent?_create h.sound] at hparent
  · intro parent kind hkind
    rw [children_create h.sound]
    by_cases hparent : t.contains parent = true
    · have hkinds : (t.create payload).2.kindsOf (t.children parent) =
          t.kindsOf (t.children parent) :=
        List.filterMap_congr fun child hchild =>
          (views_congr (node?_create_of_live h.sound payload (h.child_live hchild))).2.2.1
      rw [(views_congr (node?_create_of_live h.sound payload hparent)).2.2.1] at hkind
      rw [hkinds]
      exact h.layout hkind
    · have hnone : t.children parent = [] := by
        simp [children, (t.contains_eq_false_iff parent).mp (Bool.not_eq_true _ ▸ hparent)]
      rw [hnone]
      exact Layout.check_nil kind

theorem after (operation : Operation) : (t.after operation).WellFormed := by
  have heffect := h.effect operation
  generalize t.after operation = t' at heffect ⊢
  cases heffect with
  | refused => exact h
  | created payload => exact h.create payload
  | inserted can | appended can => exact h.insert can
  | removed hplace => exact h.unlink hplace
  | replaced can => exact h.replace can
  | moved can => exact h.move can
  | updated hkind => exact h.setPayload hkind
  | discarded hfree => exact h.freeBranch hfree.1 hfree.2.2 hfree.2.1
  | swept => exact h.sweep

end WellFormed

theorem Reachable.wellFormed {t : Tree} (h : t.Reachable) : t.WellFormed := by
  induction h with
  | new package _ => exact .new package
  | after operation _ _ ih => exact ih.after operation

/-- In every tree that a run leads to the links agree both ways and end at a top, each child has
one place, and every child list has an admissible layout. -/
theorem reachable_links_and_layouts {t : Tree} (h : t.Reachable) :
    (t.contains t.root = true ∧ t.parent? t.root = none) ∧
    (∀ parent child, child ∈ t.children parent → t.contains child = true) ∧
    (∀ child parent, t.parent? child = some parent ↔ child ∈ t.children parent) ∧
    (∀ child parent, t.parent? child = some parent → (t.children parent).count child = 1 ∧
      ∀ other, other ≠ parent → child ∉ t.children other) ∧
    (∀ id, t.Grounded id) ∧
    (∀ parent kind, t.kind? parent = some kind →
      ∃ kinds, (t.children parent).map t.kind? = kinds.map some ∧
        Layout.check kind kinds = .ok ()) := by
  have hwf := h.wellFormed
  refine ⟨⟨hwf.root_live, hwf.root_top⟩, fun _ _ => hwf.child_live, fun _ _ => hwf.parent_iff,
    ?_, hwf.grounded, ?_⟩
  · intro child parent hparent
    refine ⟨List.count_eq_one_of_mem (hwf.children_nodup parent) (hwf.parent_iff.mp hparent), ?_⟩
    intro other hne hchild
    have hother := hwf.parent_iff.mpr hchild
    rw [hparent] at hother
    cases hother
    exact hne rfl
  · intro parent kind hkind
    exact ⟨t.kindsOf (t.children parent), hwf.kindsOf_children, hwf.layout hkind⟩

/-- A unit with one function in it. -/
theorem function_links_and_layouts :
    ∃ t : Tree, t.Reachable ∧ t.parent? ⟨1, 0⟩ = some ⟨0, 0⟩ ∧
      (t.children ⟨0, 0⟩).count ⟨1, 0⟩ = 1 := by
  have hreach : (((new none).after (.create (.function "f" [] []))).after
      (.appendChild ⟨0, 0⟩ ⟨1, 0⟩)).Reachable :=
    .after _ (fun _ _ => trivial) (.after _ (fun _ _ => trivial) (.new none trivial))
  obtain ⟨_, _, _, hplace, _⟩ := reachable_links_and_layouts hreach
  exact ⟨_, hreach, by decide, (hplace _ _ (by decide)).1⟩

end ProgramTree.Tree
