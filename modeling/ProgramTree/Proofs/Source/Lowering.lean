import ProgramTree.Proofs.Grammar.Program
import ProgramTree.Proofs.Source.Placing

/-! # Placing stops at the first malformed draft

Two things can go wrong when a draft is placed: its form gives no payload, or the
tree refuses the new child. Where the kinds of all children fit under the kind of
their parent the tree refuses none, so that placing only fails at a form, and then
at the first one in reading order. -/

namespace ProgramTree

set_option autoImplicit false

/-- The kinds of the children are an admissible layout, everywhere in the draft. -/
inductive Draft.Fits : Draft → Prop
  | node {start : Nat} {form : Form} {children : List Draft} :
      Layout.check form.kind (children.map fun c => c.form.kind) = .ok () →
      (∀ c ∈ children, c.Fits) → (Draft.node start form children).Fits

/-- Why a draft is not placed, and where it starts. -/
inductive PlacingFault
  | malformed (start : Nat) (fault : MalformedNode)
  | refused (start : Nat) (fault : EditError)
  | noUnit (start : Nat)

/-- How the fault is reported to users. -/
def PlacingFault.report (source : List Char) : PlacingFault → ParseError
  | malformed start fault => .atRest source start fault.message
  | refused start fault => .atRest source start fault.message
  | noUnit start => .atRest source start Complaint.unexpected.message

namespace Draft

section Faults

mutual

/-- Places a draft as the last child of a node, and tells a form that gives no payload from a
child that the tree refuses. -/
def place (parent : NodeId) : Draft → Tree → Except PlacingFault Tree
  | node start form children, t =>
    match form.payload with
    | .error fault => .error (.malformed start fault)
    | .ok payload =>
      let (id, t) := t.create payload
      match (Tree.appendChild parent id).run.run t with
      | (.error fault, _) => .error (.refused start fault)
      | (.ok _, t) => placeAll id children t

def placeAll (parent : NodeId) : List Draft → Tree → Except PlacingFault Tree
  | [], t => .ok t
  | d :: ds, t =>
    match d.place parent t with
    | .error fault => .error fault
    | .ok t => placeAll parent ds t

end

/-- The tree that has the draft at its root. -/
def plant : Draft → Except PlacingFault Tree
  | node start form children =>
    match form.payload with
    | .error fault => .error (.malformed start fault)
    | .ok (.compilationUnit package) =>
      let t := Tree.new package
      placeAll t.root children t
    | .ok _ => .error (.noUnit start)

mutual

theorem attach_eq_place (source : List Char) (parent : NodeId) : (d : Draft) → (t : Tree) →
    d.attach source parent t = (d.place parent t).mapError (PlacingFault.report source)
  | node start form children, t => by
    rw [attach, place]
    cases form.payload with
    | error fault => rfl
    | ok payload =>
      simp only
      generalize (Tree.appendChild parent (t.create payload).1).run.run (t.create payload).2 =
        outcome
      obtain ⟨result, t'⟩ := outcome
      cases result with
      | error fault => rfl
      | ok change => exact attachAll_eq_placeAll source (t.create payload).1 children t'

theorem attachAll_eq_placeAll (source : List Char) (parent : NodeId) : (ds : List Draft) →
    (t : Tree) →
    attachAll source parent ds t = (placeAll parent ds t).mapError (PlacingFault.report source)
  | [], t => rfl
  | d :: ds, t => by
    rw [attachAll, placeAll, attach_eq_place source parent d t]
    cases d.place parent t with
    | error fault => rfl
    | ok next => exact attachAll_eq_placeAll source parent ds next

end

theorem toTree_eq_plant (source : List Char) (d : Draft) :
    d.toTree source = d.plant.mapError (PlacingFault.report source) := by
  obtain ⟨start, form, children⟩ := d
  rw [toTree, plant]
  cases form.payload with
  | error fault => rfl
  | ok payload =>
    cases payload with
    | compilationUnit package => exact attachAll_eq_placeAll source _ children _
    | _ => rfl

end Faults

section Outcome

def WellMade (d : Draft) : Prop :=
  ∃ payload, d.form.payload = .ok payload

/-- The first draft of a list whose form gives no payload, and the fault in it. -/
def FirstMalformed (ds : List Draft) (d : Draft) (fault : MalformedNode) : Prop :=
  ∃ before after, ds = before ++ d :: after ∧ (∀ c ∈ before, c.WellMade) ∧
    d.form.payload = .error fault

/-- The outcome of placing: all of the drafts are well made, or it fails at the first that is
not. -/
def Settles (ds : List Draft) (outcome : Except PlacingFault Tree) : Prop :=
  (∃ t, outcome = .ok t ∧ ∀ d ∈ ds, d.WellMade) ∨
    ∃ d fault, FirstMalformed ds d fault ∧ outcome = .error (.malformed d.start fault)

variable {ds ds' : List Draft} {outcome : Except PlacingFault Tree}

theorem FirstMalformed.of_forms {before after : List (Nat × Form)} {start : Nat} {form : Form}
    {fault : MalformedNode}
    (h : ds.map (fun d => (d.start, d.form)) = before ++ (start, form) :: after)
    (hbefore : ∀ c ∈ before, ∃ payload, c.2.payload = .ok payload)
    (hfault : form.payload = .error fault) : ∃ d, d.start = start ∧ FirstMalformed ds d fault := by
  obtain ⟨front, back, rfl, rfl, hback⟩ := List.map_eq_append_iff.mp h
  obtain ⟨d, back, rfl, hd, rfl⟩ := List.map_eq_cons_iff.mp hback
  obtain ⟨rfl, rfl⟩ := Prod.mk.inj hd
  exact ⟨d, rfl, front, back, rfl, fun c hc => hbefore _ (List.mem_map_of_mem hc), hfault⟩

theorem FirstMalformed.append {d : Draft} {fault : MalformedNode} (h : FirstMalformed ds d fault)
    (ds' : List Draft) : FirstMalformed (ds ++ ds') d fault := by
  obtain ⟨before, after, rfl, hbefore, hfault⟩ := h
  exact ⟨before, after ++ ds', by simp, hbefore, hfault⟩

theorem FirstMalformed.behind {d : Draft} {fault : MalformedNode} (h : FirstMalformed ds d fault)
    (hfront : ∀ c ∈ ds', c.WellMade) : FirstMalformed (ds' ++ ds) d fault := by
  obtain ⟨before, after, rfl, hbefore, hfault⟩ := h
  refine ⟨ds' ++ before, after, by simp, fun c hc => ?_, hfault⟩
  exact (List.mem_append.mp hc).elim (hfront c) (hbefore c)

theorem FirstMalformed.mem {d : Draft} {fault : MalformedNode} (h : FirstMalformed ds d fault) :
    d ∈ ds := by
  obtain ⟨before, after, rfl, _, _⟩ := h
  exact List.mem_append_right _ List.mem_cons_self

theorem FirstMalformed.payload_eq {d : Draft} {fault : MalformedNode}
    (h : FirstMalformed ds d fault) : d.form.payload = .error fault := by
  obtain ⟨_, _, _, _, hfault⟩ := h
  exact hfault

theorem not_wellMade_of_error {d : Draft} {fault : MalformedNode}
    (h : d.form.payload = .error fault) : ¬ d.WellMade := by
  rintro ⟨payload, hpayload⟩
  rw [h] at hpayload
  cases hpayload

theorem FirstMalformed.not_wellMade {d : Draft} {fault : MalformedNode}
    (h : FirstMalformed ds d fault) : ¬ d.WellMade :=
  not_wellMade_of_error h.payload_eq

theorem FirstMalformed.unique {d d' : Draft} {fault fault' : MalformedNode}
    (h : FirstMalformed ds d fault) (h' : FirstMalformed ds d' fault') :
    d = d' ∧ fault = fault' := by
  obtain ⟨before, after, hsplit, hbefore, hfault⟩ := h
  obtain ⟨before', after', hsplit', hbefore', hfault'⟩ := h'
  rw [hsplit] at hsplit'
  clear hsplit
  induction before generalizing before' with
  | nil =>
    cases before' with
    | nil =>
      obtain rfl : d = d' := (List.cons.inj hsplit').1
      rw [hfault] at hfault'
      exact ⟨rfl, Except.error.inj hfault'⟩
    | cons c before' =>
      obtain rfl : d = c := (List.cons.inj hsplit').1
      exact absurd (hbefore' d List.mem_cons_self) (not_wellMade_of_error hfault)
  | cons b before ih =>
    obtain ⟨hb, hbefore⟩ := List.forall_mem_cons.mp hbefore
    cases before' with
    | nil =>
      obtain rfl : b = d' := (List.cons.inj hsplit').1
      exact absurd hb (not_wellMade_of_error hfault')
    | cons c before' =>
      obtain ⟨_, hbefore'⟩ := List.forall_mem_cons.mp hbefore'
      exact ih hbefore before' (List.cons.inj hsplit').2 hbefore'

/-- What comes after drafts that are well made settles the whole. -/
theorem Settles.behind (h : Settles ds outcome) (hfront : ∀ c ∈ ds', c.WellMade) :
    Settles (ds' ++ ds) outcome := by
  rcases h with ⟨t, ht, hall⟩ | ⟨d, fault, hfirst, he⟩
  · exact Or.inl ⟨t, ht, fun c hc => (List.mem_append.mp hc).elim (hfront c) (hall c)⟩
  · exact Or.inr ⟨d, fault, hfirst.behind hfront, he⟩

mutual

/-- A draft that fits, placed where its kind fits, is placed unless a form in it is malformed. -/
theorem place_settles : (d : Draft) → {t : Tree} → {parent : NodeId} → {kind : NodeKind} →
    d.Fits → t.WellFormed → t.kind? parent = some kind →
    Layout.check kind (t.kindsOf (t.children parent) ++ [d.form.kind]) = .ok () →
    Settles d.preorder (d.place parent t)
  | node start form children, t, parent, kind, hfits, hwf, hkind, hlayout => by
    rw [preorder, place]
    cases hform : form.payload with
    | error fault =>
      exact Or.inr ⟨node start form children, fault,
        ⟨[], preorderAll children, rfl, List.forall_mem_nil _, hform⟩, rfl⟩
    | ok payload =>
      have hpayload : payload.kind = form.kind := Form.kind_of_payload hform
      have hparent := Tree.contains_of_kind? hkind
      have can := Tree.canInsert_create hwf payload hparent hkind (by rw [hpayload]; exact hlayout)
      have houtcome := (Tree.decides_appendChild_create hwf parent payload).accept can
      have hwf' : (t.withChild parent payload).WellFormed := (hwf.create payload).insert can
      have hself := Tree.kind?_withChild_self hwf parent payload
      have hchildren := Tree.children_withChild_self hwf payload hparent
      unfold Edit.outcome at houtcome
      simp only [houtcome]
      cases hfits with
      | node hcheck hall =>
        have hbelow : Settles (preorderAll children)
            (placeAll (t.create payload).1 children (t.withChild parent payload)) := by
          refine placeAll_settles children hall hwf' hself ?_
          rw [hchildren, hpayload]
          exact hcheck
        have hmade : (node start form children).WellMade := ⟨payload, hform⟩
        exact hbelow.behind (List.forall_mem_singleton.mpr hmade)

theorem placeAll_settles : (ds : List Draft) → {t : Tree} → {parent : NodeId} →
    {kind : NodeKind} → (∀ d ∈ ds, d.Fits) → t.WellFormed → t.kind? parent = some kind →
    Layout.check kind (t.kindsOf (t.children parent) ++ ds.map fun d => d.form.kind) = .ok () →
    Settles (preorderAll ds) (placeAll parent ds t)
  | [], t, _, _, _, _, _, _ => Or.inl ⟨t, rfl, List.forall_mem_nil _⟩
  | d :: ds, t, parent, kind, hfits, hwf, hkind, hlayout => by
    obtain ⟨hd, hds⟩ := List.forall_mem_cons.mp hfits
    have hparent := Tree.contains_of_kind? hkind
    have hfirst : Layout.check kind (t.kindsOf (t.children parent) ++ [d.form.kind]) = .ok () := by
      refine Layout.check_sublist hlayout (List.Sublist.append_left ?_ _)
      exact (List.nil_sublist _).cons_cons d.form.kind
    rw [preorderAll, placeAll]
    have hsettles := place_settles d hd hwf hkind hfirst
    rcases hsettles with ⟨next, hnext, hmade⟩ | ⟨n, fault, hmalformed, he⟩
    · rw [hnext]
      have hattach : d.attach [] parent t = .ok next := by
        rw [attach_eq_place, hnext]
        rfl
      obtain ⟨b, hgrown, hspells⟩ := attach_ok d hwf hparent hattach
      have hb : b.kind = d.form.kind := b.kind_snapshot.symm.trans hspells.kind
      have hkind' : next.kind? parent = some kind := by
        rw [Tree.kind?, hgrown.payload parent hparent]
        exact hkind
      have hothers : Settles (preorderAll ds) (placeAll parent ds next) := by
        refine placeAll_settles ds hds hgrown.wellFormed hkind' ?_
        rw [hgrown.kindsOf_children hwf, List.map_singleton, hb, List.append_assoc]
        exact hlayout
      exact hothers.behind hmade
    · rw [he]
      exact Or.inr ⟨n, fault, hmalformed.append _, rfl⟩

end

/-- A unit whose children fit is planted unless a form in it is malformed. -/
theorem plant_settles {d : Draft} (hfits : d.Fits) (hkind : d.form.kind = .compilationUnit) :
    Settles d.preorder d.plant := by
  obtain ⟨start, form, children⟩ := d
  rw [preorder, plant]
  cases hform : form.payload with
  | error fault =>
    exact Or.inr ⟨node start form children, fault,
      ⟨[], preorderAll children, rfl, List.forall_mem_nil _, hform⟩, rfl⟩
  | ok payload =>
    have hpayload : payload.kind = .compilationUnit := (Form.kind_of_payload hform).trans hkind
    cases payload with
    | compilationUnit package =>
      have hwf := Tree.WellFormed.new package
      have hroot : (Tree.new package).kind? (Tree.new package).root = some .compilationUnit := by
        rw [Tree.kind?, Tree.payload?, Tree.node?_new, if_pos rfl]
        rfl
      have hnone : (Tree.new package).children (Tree.new package).root = [] := by
        rw [Tree.children, Tree.node?_new, if_pos rfl]
        rfl
      cases hfits with
      | node hcheck hall =>
        have hbelow : Settles (preorderAll children)
            (placeAll (Tree.new package).root children (Tree.new package)) := by
          refine placeAll_settles children hall hwf hroot ?_
          rw [hnone]
          exact hkind ▸ hcheck
        have hmade : (node start form children).WellMade := ⟨.compilationUnit package, hform⟩
        exact hbelow.behind (List.forall_mem_singleton.mpr hmade)
    | _ => cases hpayload

end Outcome

section Spelled

mutual

theorem Spells.wellMade : {d : Draft} → {s : Snapshot} → d.Spells s → ∀ c ∈ d.preorder, c.WellMade
  | node _ _ _, .node payload _, ⟨hform, hspells⟩ =>
    List.forall_mem_cons.mpr ⟨⟨payload, hform⟩, hspells.wellMade⟩

theorem SpellAll.wellMade : {ds : List Draft} → {ss : List Snapshot} → SpellAll ds ss →
    ∀ c ∈ preorderAll ds, c.WellMade
  | [], [], _ => List.forall_mem_nil _
  | _ :: _, _ :: _, ⟨hspell, hspells⟩ =>
    List.forall_mem_append.mpr ⟨hspell.wellMade, hspells.wellMade⟩

end

theorem SpellAll.map_kind {ds : List Draft} {ss : List Snapshot} (h : SpellAll ds ss) :
    ds.map (fun d => d.form.kind) = ss.map Snapshot.kind := by
  induction ds generalizing ss with
  | nil =>
    cases ss with
    | nil => rfl
    | cons s ss => cases h
  | cons d ds ih =>
    cases ss with
    | nil => cases h
    | cons s ss => rw [List.map_cons, List.map_cons, ih h.2, h.1.kind]

/-- A draft of an admissible branch fits. -/
theorem Spells.fits {s : Snapshot} (hadmissible : s.Admissible) {d : Draft} (h : d.Spells s) :
    d.Fits := by
  induction hadmissible generalizing d with
  | node _ hlayout _ ih =>
    obtain ⟨start, form, children⟩ := d
    obtain ⟨hform, hspells⟩ := h
    refine .node ?_ fun c hc => ?_
    · rw [hspells.map_kind, ← Form.kind_of_payload hform]
      exact hlayout
    · obtain ⟨s, hs, hspell⟩ := hspells.exists_snapshot hc
      exact ih s hs hspell

/-- A draft of a unit that is admissible gives a tree with its snapshot. -/
theorem exists_toTree {source : List Char} {d : Draft} {package : Option String}
    {items : List Snapshot} (h : d.Spells (.node (.compilationUnit package) items))
    (hadmissible : (Snapshot.node (.compilationUnit package) items).Admissible) :
    ∃ t, d.toTree source = .ok t ∧ t.ReachableWith Payload.Made ∧
      t.snapshot? t.root = some (.node (.compilationUnit package) items) := by
  have hmade := h.wellMade
  obtain ⟨t, ht⟩ : ∃ t, d.toTree source = .ok t := by
    rw [toTree_eq_plant]
    rcases plant_settles (h.fits hadmissible) h.kind.symm with ⟨t, ht, _⟩ | ⟨n, fault, hfirst, _⟩
    · exact ⟨t, by rw [ht]; rfl⟩
    · exact absurd (hmade n hfirst.mem) hfirst.not_wellMade
  obtain ⟨hreach, package', items', hsnapshot, hspells⟩ := toTree_ok ht
  exact ⟨t, ht, hreach, by rw [hsnapshot, hspells.unique h]⟩

end Spelled

end Draft

end ProgramTree
