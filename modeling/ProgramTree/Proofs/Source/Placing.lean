import ProgramTree.Source.Build
import ProgramTree.Proofs.Arena.Packed
import ProgramTree.Proofs.Source.Spellable

/-! # Trees that drafts are placed in

Placing a draft adds a branch behind the last child of a node and leaves the
rest of the tree as it was. The branch has the snapshot that the draft spells,
and it fits wherever its layouts are admissible. Each step of placing is an
operation on trees, so a tree that drafts are placed in is one that a run leads
to. Nothing is removed on the way, so the identities of the branch count up. -/

namespace ProgramTree

set_option autoImplicit false

namespace Tree

/-- The tree with one more child of a node, itself without children. -/
def withChild (t : Tree) (parent : NodeId) (payload : Payload) : Tree :=
  (t.create payload).2.link parent (t.children parent).length (t.create payload).1

section WithChild

variable {t : Tree} (h : t.WellFormed) {parent : NodeId} (payload : Payload) (id : NodeId)
include h

theorem kind?_create_self :
    (t.create payload).2.kind? (t.create payload).1 = some payload.kind := by
  rw [kind?, payload?_create h.sound, if_pos rfl]
  rfl

theorem children_create_self : (t.create payload).2.children (t.create payload).1 = [] := by
  rw [children_create h.sound, children, node?_create_fresh h.sound]
  rfl

theorem payload?_withChild :
    (t.withChild parent payload).payload? id =
      if id = (t.create payload).1 then some payload else t.payload? id := by
  rw [withChild, payload?_link, payload?_create h.sound]

variable (parent) in
theorem kind?_withChild_self :
    (t.withChild parent payload).kind? (t.create payload).1 = some payload.kind := by
  rw [withChild, kind?_link, kind?_create_self h]

variable (hparent : t.contains parent = true)
include hparent

theorem contains_create_of_live : (t.create payload).2.contains parent = true := by
  rw [(views_congr (node?_create_of_live h.sound payload hparent)).1]
  exact hparent

omit hparent in
theorem contains_withChild_of_live {id : NodeId} (hlive : t.contains id = true) :
    (t.withChild parent payload).contains id = true := by
  rw [withChild, contains_link]
  exact contains_create_of_live h payload hlive

omit hparent in
theorem payload?_withChild_of_live {id : NodeId} (hlive : t.contains id = true) :
    (t.withChild parent payload).payload? id = t.payload? id := by
  rw [payload?_withChild h, if_neg (ne_create_of_live h.sound payload hlive)]

theorem children_withChild :
    (t.withChild parent payload).children id =
      if id = parent then t.children parent ++ [(t.create payload).1] else t.children id := by
  rw [withChild, children_link _ _ (contains_create_of_live h payload hparent),
    children_create h.sound, children_create h.sound, List.insertIdx_length_self]

theorem children_withChild_self :
    (t.withChild parent payload).children (t.create payload).1 = [] := by
  rw [children_withChild h payload _ hparent,
    if_neg (ne_create_of_live h.sound payload hparent).symm, ← children_create h.sound payload]
  exact children_create_self h payload

/-- A created node fits behind the children of a node if its kind does. -/
theorem canInsert_create {kind : NodeKind} (hkind : t.kind? parent = some kind)
    (hlayout : Layout.check kind (t.kindsOf (t.children parent) ++ [payload.kind]) = .ok ()) :
    (t.create payload).2.CanInsert parent (t.children parent).length (t.create payload).1 := by
  have hlive := contains_create_of_live h payload hparent
  have hne := ne_create_of_live h.sound payload hparent
  refine ⟨hlive, contains_of_kind? (kind?_create_self h payload), ?_, ?_, ?_, ?_, ?_⟩
  · exact (ne_create_of_live h.sound payload h.root_live).symm
  · rw [parent?_create h.sound, parent?, node?_create_fresh h.sound]
    rfl
  · rw [children_create h.sound]
  · -- Nothing lies beneath a node without children but the node itself.
    intro hwithin
    rcases hwithin.eq_or_child with he | ⟨child, hchild, _⟩
    · exact hne he
    · have hmem := (h.create payload).parent_iff.mp hchild
      rw [children_create_self h] at hmem
      cases hmem
  · intro kind' childKind hkind' hchild
    rw [(views_congr (node?_create_of_live h.sound payload hparent)).2.2.1, hkind] at hkind'
    rw [kind?_create_self h] at hchild
    cases hkind'
    cases hchild
    have hkinds : (t.create payload).2.kindsOf (t.children parent) =
        t.kindsOf (t.children parent) := by
      refine List.filterMap_congr fun child hchild => ?_
      exact (views_congr (node?_create_of_live h.sound payload (h.child_live hchild))).2.2.1
    rw [children_create h.sound, hkinds, ← h.length_kindsOf_children, List.insertIdx_length_self]
    exact hlayout

omit hparent in
variable (parent) in
/-- Placing a node either leaves the tree with one more child, or the created node unplaced. -/
theorem decides_appendChild_create :
    (appendChild parent (t.create payload).1).Decides (t.create payload).2
      ((t.create payload).2.CanInsert parent (t.children parent).length (t.create payload).1)
      (.inserted parent (t.children parent).length (t.create payload).1)
      (t.withChild parent payload) := by
  have hdecides := decides_appendChild (h.create payload) parent (t.create payload).1
  rw [children_create h.sound] at hdecides
  exact hdecides

end WithChild

/-- The tree has more children behind those of a node, with the given branches, and is otherwise
as it was. In a store that was only added to, the branches have the next identities. -/
structure Grown (t t' : Tree) (parent : NodeId) (bs : List Branch) : Prop where
  wellFormed : t'.WellFormed
  root : t'.root = t.root
  payload : ∀ id, t.contains id = true → t'.payload? id = t.payload? id
  others : ∀ id, t.contains id = true → id ≠ parent → t'.children id = t.children id
  children : t'.children parent = t.children parent ++ bs.map Branch.id
  held : ∀ b ∈ bs, b.HeldBy t'
  reachable : t.ReachableWith Payload.Made → t'.ReachableWith Payload.Made
  numbered : ∀ count, t.nodes.Packed count →
    Branch.idsAll bs = NodeId.consecutive count (Branch.idsAll bs).length ∧
      t'.nodes.Packed (count + (Branch.idsAll bs).length)

end Tree

namespace Tree.Grown

variable {t t' t'' : Tree} {parent : NodeId} {bs : List Branch}

theorem refl (h : t.WellFormed) (parent : NodeId) : t.Grown t parent [] where
  wellFormed := h
  root := rfl
  payload := fun _ _ => rfl
  others := fun _ _ _ => rfl
  children := (List.append_nil _).symm
  held := by simp
  reachable := id
  numbered := fun _ hpacked => ⟨rfl, hpacked⟩

theorem live (h : t.Grown t' parent bs) {id : NodeId} (hlive : t.contains id = true) :
    t'.contains id = true := by
  obtain ⟨payload, hpayload, _⟩ := node?_eq_some hlive
  have hkind : t'.kind? id = some payload.kind := by
    rw [kind?, h.payload id hlive, hpayload]
    rfl
  exact contains_of_kind? hkind

theorem cons {b : Branch} (h : t.Grown t' parent [b]) (h' : t'.Grown t'' parent bs) :
    t.Grown t'' parent (b :: bs) where
  wellFormed := h'.wellFormed
  root := h'.root.trans h.root
  payload := fun id hlive => (h'.payload id (h.live hlive)).trans (h.payload id hlive)
  others := fun id hlive hne => (h'.others id (h.live hlive) hne).trans (h.others id hlive hne)
  children := by
    rw [h'.children, h.children, List.append_assoc]
    rfl
  held := by
    have hheld := h.held b List.mem_cons_self
    have hmem : b.id ∈ t'.children parent := by
      rw [h.children]
      simp
    -- The parent of the branch is not in the branch, and only its children have changed.
    have hbelow : ∀ id ∈ b.ids, t'.contains id = true ∧ id ≠ parent := by
      intro id hid
      have hwithin := (h.wellFormed.mem_ids_iff hheld id).mp hid
      constructor
      · rcases within_iff.mp hwithin with rfl | ⟨above, habove, _⟩
        · exact hheld.live
        · exact contains_of_parent? habove
      · rintro rfl
        have hparent := h.wellFormed.parent_iff.mpr hmem
        exact (h.wellFormed.grounded b.id).parent_not_within hparent hwithin
    refine List.forall_mem_cons.mpr ⟨hheld.congr fun id hid => ?_, h'.held⟩
    obtain ⟨hlive, hne⟩ := hbelow id hid
    exact ⟨h'.payload id hlive, h'.others id hlive hne⟩
  reachable := h'.reachable ∘ h.reachable
  numbered := by
    intro count hpacked
    obtain ⟨hfirst, hpacked'⟩ := h.numbered count hpacked
    obtain ⟨hrest, hpacked''⟩ := h'.numbered _ hpacked'
    have hids : Branch.idsAll (b :: bs) = Branch.idsAll [b] ++ Branch.idsAll bs := by simp
    rw [hids, List.length_append, ← NodeId.consecutive_append, ← hfirst, ← hrest, ← Nat.add_assoc]
    exact ⟨rfl, hpacked''⟩

/-- A new child with the branches that were then added beneath it. -/
theorem withChild {payload : Payload} (hwf : t.WellFormed) (hparent : t.contains parent = true)
    (hmade : payload.Made)
    (houtcome : (appendChild parent (t.create payload).1).outcome (t.create payload).2 =
      (.ok (.inserted parent (t.children parent).length (t.create payload).1),
        t.withChild parent payload))
    (h : (t.withChild parent payload).Grown t' (t.create payload).1 bs) :
    t.Grown t' parent [.node (t.create payload).1 payload bs] where
  wellFormed := h.wellFormed
  root := h.root
  payload := by
    intro id hlive
    rw [h.payload id (contains_withChild_of_live hwf payload hlive),
      payload?_withChild_of_live hwf payload hlive]
  others := by
    intro id hlive hne
    rw [h.others id (contains_withChild_of_live hwf payload hlive)
      (ne_create_of_live hwf.sound payload hlive), children_withChild hwf payload id hparent,
      if_neg hne]
  children := by
    rw [h.others parent (contains_withChild_of_live hwf payload hparent)
      (ne_create_of_live hwf.sound payload hparent), children_withChild hwf payload parent hparent,
      if_pos rfl]
    rfl
  held := by
    have hlive := contains_of_kind? (kind?_withChild_self hwf parent payload)
    have hpayload : t'.payload? (t.create payload).1 = some payload := by
      rw [h.payload _ hlive, payload?_withChild hwf, if_pos rfl]
    have hchildren : t'.children (t.create payload).1 = bs.map Branch.id := by
      rw [h.children, children_withChild_self hwf payload hparent, List.nil_append]
    exact List.forall_mem_singleton.mpr (.node hpayload hchildren h.held)
  reachable := by
    intro hreach
    have hcreated : (t.after (.create payload)).ReachableWith Payload.Made :=
      .after _ (fun _ hsome => Option.some.inj hsome ▸ hmade) hreach
    have hplaced := ReachableWith.after (.appendChild parent (t.create payload).1)
      (fun _ hsome => nomatch hsome) hcreated
    have htree : (t.after (.create payload)).after (.appendChild parent (t.create payload).1) =
        t.withChild parent payload := congrArg Prod.snd houtcome
    exact h.reachable (htree ▸ hplaced)
  numbered := by
    intro count hpacked
    have hplaced : (t.withChild parent payload).nodes.Packed (count + 1) :=
      ((hpacked.insert hwf.sound _).modify _ _).modify _ _
    obtain ⟨hbelow, hpacked'⟩ := h.numbered _ hplaced
    have hid : (t.create payload).1 = ⟨count, 0⟩ := hpacked.insert_id _
    have hids : Branch.idsAll [.node (t.create payload).1 payload bs] =
        ⟨count, 0⟩ :: Branch.idsAll bs := by
      rw [Branch.idsAll_cons, Branch.id, Branch.children, hid, Branch.idsAll, List.append_nil]
    rw [hids, List.length_cons, NodeId.consecutive_succ, ← hbelow]
    exact ⟨rfl, by rwa [Nat.add_assoc, Nat.add_comm 1] at hpacked'⟩

end Tree.Grown

section Drafts

variable {source : List Char}

mutual

/-- A draft that is placed adds a branch that has the snapshot that it spells. -/
theorem Draft.attach_ok : (d : Draft) → {t t' : Tree} → {parent : NodeId} → t.WellFormed →
    t.contains parent = true → d.attach source parent t = .ok t' →
    ∃ b, t.Grown t' parent [b] ∧ d.Spells b.snapshot
  | .node start form children, t, t', parent, hwf, hparent, h => by
    cases hform : form.payload with
    | error e => simp [Draft.attach, hform] at h
    | ok payload =>
      have hdecides := Tree.decides_appendChild_create hwf parent payload
      rcases hdecides.cases with ⟨can, houtcome⟩ | ⟨_, e, herror⟩
      · have hwf' : (t.withChild parent payload).WellFormed := (hwf.create payload).insert can
        have hlive := Tree.contains_of_kind? (Tree.kind?_withChild_self hwf parent payload)
        have hall : Draft.attachAll source (t.create payload).1 children (t.withChild parent payload) =
            .ok t' := by
          unfold Edit.outcome at houtcome
          simpa only [Draft.attach, hform, houtcome] using h
        obtain ⟨bs, hgrown, hspells⟩ := Draft.attachAll_ok children hwf' hlive hall
        refine ⟨_, .withChild hwf hparent ⟨form, hform⟩ houtcome hgrown, hform, ?_⟩
        rw [Branch.snapshots_eq_map]
        exact hspells
      · unfold Edit.outcome at herror
        simp [Draft.attach, hform, herror] at h

theorem Draft.attachAll_ok : (ds : List Draft) → {t t' : Tree} → {parent : NodeId} →
    t.WellFormed → t.contains parent = true → Draft.attachAll source parent ds t = .ok t' →
    ∃ bs, t.Grown t' parent bs ∧ Draft.SpellAll ds (bs.map Branch.snapshot)
  | [], t, t', parent, hwf, _, h => by
    cases h
    exact ⟨[], .refl hwf parent, trivial⟩
  | d :: ds, t, t', parent, hwf, hparent, h => by
    cases hfirst : d.attach source parent t with
    | error e => simp [Draft.attachAll, hfirst] at h
    | ok next =>
      obtain ⟨b, hgrown, hspell⟩ := Draft.attach_ok d hwf hparent hfirst
      simp only [Draft.attachAll, hfirst] at h
      obtain ⟨bs, hgrown', hspells⟩ :=
        Draft.attachAll_ok ds hgrown.wellFormed (hgrown.live hparent) h
      exact ⟨b :: bs, hgrown.cons hgrown', hspell, hspells⟩

end

end Drafts

/-- The drafts have the same payloads in the same places. -/
inductive Draft.Corresponds : Draft → Draft → Prop
  | node {start start' : Nat} {form form' : Form} {children children' : List Draft} :
      form.payload.toOption = form'.payload.toOption →
      List.Forall₂ Draft.Corresponds children children' →
      Draft.Corresponds (.node start form children) (.node start' form' children')

theorem toOption_cases {ε α : Type} {x y : Except ε α} (h : x.toOption = y.toOption) :
    (∃ e e', x = .error e ∧ y = .error e') ∨ ∃ a, x = .ok a ∧ y = .ok a := by
  cases x with
  | error e =>
    cases y with
    | error e' => exact .inl ⟨e, e', rfl, rfl⟩
    | ok b => cases h
  | ok a =>
    cases y with
    | error e' => cases h
    | ok b =>
      cases Option.some.inj h
      exact .inr ⟨a, rfl, rfl⟩

namespace Draft

variable {source source' : List Char}

mutual

/-- What a draft is placed as depends on its payloads alone. -/
theorem Corresponds.attach : (d : Draft) → {d' : Draft} → d.Corresponds d' → (parent : NodeId) →
    (t : Tree) → (d.attach source parent t).toOption = (d'.attach source' parent t).toOption
  | .node _ form children, .node _ form' _, .node hpayload hchildren, parent, t => by
    rw [Draft.attach, Draft.attach]
    rcases toOption_cases hpayload with ⟨e, e', he, he'⟩ | ⟨payload, hform, hform'⟩
    · rw [he, he']
      rfl
    · rw [hform, hform']
      dsimp only
      rcases (Tree.appendChild parent (t.create payload).1).run.run (t.create payload).2 with
        ⟨_ | _, t'⟩
      · rfl
      · exact Corresponds.attachAll children hchildren (t.create payload).1 t'

theorem Corresponds.attachAll : (ds : List Draft) → {ds' : List Draft} →
    List.Forall₂ Corresponds ds ds' → (parent : NodeId) → (t : Tree) →
    (Draft.attachAll source parent ds t).toOption = (Draft.attachAll source' parent ds' t).toOption
  | [], _, .nil, _, _ => rfl
  | d :: ds, d' :: ds', .cons h hs, parent, t => by
    rw [Draft.attachAll, Draft.attachAll]
    rcases toOption_cases (Corresponds.attach d h parent t) with ⟨e, e', he, he'⟩ | ⟨t₁, hd, hd'⟩
    · rw [he, he']
      rfl
    · rw [hd, hd']
      exact Corresponds.attachAll ds hs parent t₁

end

theorem Corresponds.toTree {d d' : Draft} (h : d.Corresponds d') :
    (d.toTree source).toOption = (d'.toTree source').toOption := by
  cases h with
  | @node _ _ form form' children children' hpayload hchildren =>
    rw [Draft.toTree, Draft.toTree]
    rcases toOption_cases hpayload with ⟨e, e', he, he'⟩ | ⟨payload, hform, hform'⟩
    · rw [he, he']
      rfl
    · rw [hform, hform']
      cases payload with
      | compilationUnit package => exact Corresponds.attachAll children hchildren _ _
      | _ => rfl

mutual

/-- Drafts that spell the same snapshot correspond. -/
theorem Spells.corresponds : {s : Snapshot} → {d d' : Draft} → d.Spells s → d'.Spells s →
    d.Corresponds d'
  | .node _ _, .node _ _ _, .node _ _ _, ⟨hform, hchildren⟩, ⟨hform', hchildren'⟩ =>
    .node (by rw [hform, hform']) (hchildren.correspond hchildren')

theorem SpellAll.correspond : {ss : List Snapshot} → {ds ds' : List Draft} → SpellAll ds ss →
    SpellAll ds' ss → List.Forall₂ Corresponds ds ds'
  | [], [], [], _, _ => .nil
  | _ :: _, _ :: _, _ :: _, ⟨hfirst, hrest⟩, ⟨hfirst', hrest'⟩ =>
    .cons (hfirst.corresponds hfirst') (hrest.correspond hrest')

end

end Draft

section Success

variable {source : List Char}

theorem Tree.Grown.kindsOf_children {t t' : Tree} {parent : NodeId} {bs : List Branch}
    (h : t.Grown t' parent bs) (hwf : t.WellFormed) :
    t'.kindsOf (t'.children parent) = t.kindsOf (t.children parent) ++ bs.map Branch.kind := by
  rw [h.children, Tree.kindsOf, List.filterMap_append, ← Tree.kindsOf, ← Tree.kindsOf,
    Branch.kindsOf_map_id h.held]
  congr 1
  refine List.filterMap_congr fun id hid => ?_
  rw [Tree.kind?, Tree.kind?, h.payload id (hwf.child_live hid)]

/-- The tree that a draft gives holds one branch, which the draft spells, with the identities
counted through. -/
theorem Draft.toTree_held {d : Draft} {t : Tree} (h : d.toTree source = .ok t) :
    t.ReachableWith Payload.Made ∧ ∃ package bs,
      (Branch.node t.root (.compilationUnit package) bs).HeldBy t ∧
      d.Spells (Branch.node t.root (.compilationUnit package) bs).snapshot ∧
      (Branch.node t.root (.compilationUnit package) bs).ids = t.nodes.ids ∧
      t.nodes.Packed t.size := by
  obtain ⟨start, form, children⟩ := d
  rw [Draft.toTree.eq_def] at h
  cases hform : form.payload with
  | error e => simp [hform] at h
  | ok payload =>
    cases payload with
    | compilationUnit package =>
      simp only [hform] at h
      have hwf := Tree.WellFormed.new package
      obtain ⟨bs, hgrown, hspells⟩ := Draft.attachAll_ok children hwf hwf.root_live h
      have hmade : (Payload.compilationUnit package).Made := ⟨form, hform⟩
      have hpayload : t.payload? (Tree.new package).root = some (.compilationUnit package) := by
        rw [hgrown.payload _ hwf.root_live, Tree.payload?, Tree.node?_new, if_pos rfl]
        rfl
      have hchildren : t.children (Tree.new package).root = bs.map Branch.id := by
        rw [hgrown.children, Tree.children, Tree.node?_new, if_pos rfl]
        rfl
      have hpacked := Arena.packed_empty.insert Arena.sound_empty
        (⟨.compilationUnit package, none, []⟩ : Node)
      obtain ⟨hids, hpacked'⟩ := hgrown.numbered 1 hpacked
      have hsize : t.size = 1 + (Branch.idsAll bs).length := hpacked'.size_eq
      refine ⟨hgrown.reachable (.new package hmade), package, bs, ?_, ⟨hform, ?_⟩, ?_, ?_⟩
      · rw [hgrown.root]
        exact .node hpayload hchildren hgrown.held
      · rw [Branch.snapshots_eq_map]
        exact hspells
      · rw [hpacked'.ids_eq, Nat.add_comm, NodeId.consecutive_succ, ← hids, hgrown.root]
        rfl
      · rwa [hsize]
    | _ => simp [hform] at h

/-- The tree that a draft gives has the snapshot at its root that the draft spells. -/
theorem Draft.toTree_ok {d : Draft} {t : Tree} (h : d.toTree source = .ok t) :
    t.ReachableWith Payload.Made ∧ ∃ package items,
      t.snapshot? t.root = some (.node (.compilationUnit package) items) ∧
      d.Spells (.node (.compilationUnit package) items) := by
  obtain ⟨hreach, package, bs, held, hspells, _⟩ := Draft.toTree_held h
  refine ⟨hreach, package, Branch.snapshots bs, ?_, hspells⟩
  have hbranch := hreach.reachable.wellFormed.branch?_of_heldBy held
  rw [Branch.id] at hbranch
  rw [Tree.snapshot?, hbranch]
  rfl

theorem buildTree_eq_ok {source : String} {t : Tree} : buildTree source = .ok t ↔
    ∃ d, Reader.run Reader.compilationUnit source.toList = .ok d ∧
      d.toTree source.toList = .ok t := by
  rw [buildTree]
  cases Reader.run Reader.compilationUnit source.toList with
  | error e => simp
  | ok d => simp

end Success

end ProgramTree
