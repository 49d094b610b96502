import ProgramTree.Grammar.Statement
import ProgramTree.Proofs.Payload
import ProgramTree.Proofs.Tree.Payloads

/-! # What can be spelled

A branch can be spelled when its payloads conform, its layouts are admissible
and each `try` has its `catch`. Runs keep the first two, whatever they do, but
may leave a `try` without a `catch`, which the language has no text for. -/

namespace ProgramTree

set_option autoImplicit false

namespace Branch

theorem snapshots_eq_map (bs : List Branch) : snapshots bs = bs.map snapshot := by
  induction bs with
  | nil => rfl
  | cons b bs ih => rw [snapshots, ih, List.map_cons]

@[simp] theorem kind_snapshot (b : Branch) : b.snapshot.kind = b.kind := by
  cases b
  rfl

end Branch

namespace Snapshot

/-- Every payload conforms, and every layout is admissible. -/
inductive Admissible : Snapshot → Prop
  | node {payload : Payload} {children : List Snapshot} :
      payload.Conforms → Layout.check payload.kind (children.map kind) = .ok () →
      (∀ c ∈ children, c.Admissible) → (node payload children).Admissible

/-- No `try` lacks its `catch`. -/
inductive TriesCatch : Snapshot → Prop
  | node {payload : Payload} {children : List Snapshot} :
      (payload.kind = .tryStatement → ∃ c ∈ children, c.kind = .catchClause) →
      (∀ c ∈ children, c.TriesCatch) → (node payload children).TriesCatch

/-- Every payload conforms, every layout is admissible, and no `try` lacks its `catch`. -/
inductive Spellable : Snapshot → Prop
  | node {payload : Payload} {children : List Snapshot} :
      payload.Conforms → Layout.check payload.kind (children.map kind) = .ok () →
      (payload.kind = .tryStatement → ∃ c ∈ children, c.kind = .catchClause) →
      (∀ c ∈ children, c.Spellable) → (node payload children).Spellable

variable {s : Snapshot}

theorem Spellable.conforms (h : s.Spellable) : s.payload.Conforms := by
  cases h with
  | node hconforms _ _ _ => exact hconforms

theorem Spellable.layout (h : s.Spellable) : Layout.check s.kind (s.children.map kind) = .ok () := by
  cases h with
  | node _ hlayout _ _ => exact hlayout

theorem Spellable.children (h : s.Spellable) : ∀ c ∈ s.children, c.Spellable := by
  cases h with
  | node _ _ _ hall => exact hall

theorem Spellable.admissible (h : s.Spellable) : s.Admissible := by
  induction h with
  | node hconforms hlayout _ _ ih => exact .node hconforms hlayout ih

theorem Spellable.triesCatch (h : s.Spellable) : s.TriesCatch := by
  induction h with
  | node _ _ hcatch _ ih => exact .node hcatch ih

theorem Admissible.spellable (h : s.Admissible) (hcatch : s.TriesCatch) : s.Spellable := by
  induction h with
  | node hconforms hlayout _ ih =>
    cases hcatch with
    | node hhere hbelow => exact .node hconforms hlayout hhere fun c hc => ih c hc (hbelow c hc)

end Snapshot

/-- Each `try` under the root has a `catch`. -/
def Tree.TriesCatch (t : Tree) : Prop :=
  ∀ id, t.Within id t.root → t.kind? id = some .tryStatement →
    ∃ child ∈ t.children id, t.kind? child = some .catchClause

section Spellable

variable {t : Tree}

theorem Branch.kindsOf_map_id {bs : List Branch} (h : ∀ b ∈ bs, b.HeldBy t) :
    t.kindsOf (bs.map Branch.id) = bs.map Branch.kind := by
  induction bs with
  | nil => rfl
  | cons b bs ih =>
    obtain ⟨hb, hbs⟩ := List.forall_mem_cons.mp h
    rw [List.map_cons, Tree.kindsOf, List.filterMap_cons_some hb.kind, ← Tree.kindsOf, ih hbs,
      List.map_cons]

theorem Branch.HeldBy.kindsOf_children {id : NodeId} {payload : Payload} {children : List Branch}
    (held : (Branch.node id payload children).HeldBy t) :
    t.kindsOf (t.children id) = children.map Branch.kind := by
  cases held with
  | node _ hchildren hall =>
    rw [hchildren]
    exact Branch.kindsOf_map_id hall

theorem Branch.HeldBy.admissible (hwf : t.WellFormed)
    (hpayloads : ∀ id payload, t.payload? id = some payload → payload.Conforms) {b : Branch}
    (held : b.HeldBy t) : b.snapshot.Admissible := by
  induction held with
  | @node id payload children hpayload hchildren hall ih =>
    have held : (Branch.node id payload children).HeldBy t := .node hpayload hchildren hall
    have hkind : t.kind? id = some payload.kind := held.kind
    have hlayout := hwf.layout hkind
    rw [held.kindsOf_children] at hlayout
    rw [Branch.snapshot, Branch.snapshots_eq_map]
    refine .node (hpayloads id payload hpayload) ?_ ?_
    · rw [List.map_map]
      exact (funext Branch.kind_snapshot : Snapshot.kind ∘ Branch.snapshot = Branch.kind) ▸ hlayout
    · intro s hs
      obtain ⟨c, hc, rfl⟩ := List.mem_map.mp hs
      exact ih c hc

/-- Where a `try` of a branch is missing its `catch`, it is missing it in the tree. -/
theorem Branch.HeldBy.triesCatch_iff {b : Branch} (held : b.HeldBy t) : b.snapshot.TriesCatch ↔
    ∀ id ∈ b.ids, t.kind? id = some .tryStatement →
      ∃ child ∈ t.children id, t.kind? child = some .catchClause := by
  induction held with
  | @node id payload children hpayload hchildren hall ih =>
    have held : (Branch.node id payload children).HeldBy t := .node hpayload hchildren hall
    have hkind : t.kind? id = some payload.kind := held.kind
    have hcatch : (∃ child ∈ t.children id, t.kind? child = some .catchClause) ↔
        ∃ c ∈ children.map Branch.snapshot, c.kind = .catchClause := by
      rw [hchildren]
      constructor
      · rintro ⟨_, hmem, hkindChild⟩
        obtain ⟨c, hc, rfl⟩ := List.mem_map.mp hmem
        rw [(hall c hc).kind, Option.some.injEq] at hkindChild
        exact ⟨_, List.mem_map_of_mem hc, c.kind_snapshot.trans hkindChild⟩
      · rintro ⟨_, hmem, hkindChild⟩
        obtain ⟨c, hc, rfl⟩ := List.mem_map.mp hmem
        rw [c.kind_snapshot] at hkindChild
        exact ⟨_, List.mem_map_of_mem hc, (hall c hc).kind.trans (congrArg some hkindChild)⟩
    rw [Branch.snapshot, Branch.snapshots_eq_map, Branch.ids, Branch.idsAll_eq, List.forall_mem_cons,
      hkind, Option.some.injEq, hcatch]
    constructor
    · rintro ⟨htop, hbelow⟩
      refine ⟨htop, fun other hother => ?_⟩
      obtain ⟨c, hc, hother⟩ := List.mem_flatMap.mp hother
      exact (ih c hc).mp (hbelow _ (List.mem_map_of_mem hc)) other hother
    · rintro ⟨htop, hbelow⟩
      refine .node htop fun s hs => ?_
      obtain ⟨c, hc, rfl⟩ := List.mem_map.mp hs
      exact (ih c hc).mpr fun other hother =>
        hbelow other (List.mem_flatMap.mpr ⟨c, hc, hother⟩)

theorem Tree.WellFormed.triesCatch_iff (hwf : t.WellFormed) {s : Snapshot}
    (hroot : t.snapshot? t.root = some s) : s.TriesCatch ↔ t.TriesCatch := by
  obtain ⟨b, hb, hid, held⟩ := hwf.exists_branch? hwf.root_live
  rw [snapshot?, hb, Option.map_some, Option.some.injEq] at hroot
  rw [← hroot, held.triesCatch_iff]
  refine forall_congr' fun id => ?_
  rw [hwf.mem_ids_iff held, hid]

theorem Tree.WellFormed.exists_held (hwf : t.WellFormed) {id : NodeId} {s : Snapshot}
    (hs : t.snapshot? id = some s) :
    ∃ b, t.branch? id = some b ∧ b.id = id ∧ b.HeldBy t ∧ b.snapshot = s := by
  obtain ⟨b, hb, rfl⟩ := Option.map_eq_some_iff.mp hs
  have hlive : t.contains id = true := by
    by_contra hdead
    rw [branch?_of_dead (Bool.eq_false_iff.mpr hdead)] at hb
    cases hb
  obtain ⟨b', hb', hid, held⟩ := hwf.exists_branch? hlive
  obtain rfl : b = b' := Option.some.inj (hb.symm.trans hb')
  exact ⟨b, hb, hid, held, rfl⟩

theorem Tree.ReachableWith.admissible_snapshot (h : t.ReachableWith Payload.Made)
    {id : NodeId} {s : Snapshot} (hs : t.snapshot? id = some s) : s.Admissible := by
  have hwf := h.reachable.wellFormed
  obtain ⟨b, _, _, held, rfl⟩ := hwf.exists_held hs
  exact held.admissible hwf fun id payload hpayload => Payload.made_iff.mp (h.admissible hpayload)

/-- A tree that a run leads to has an admissible unit at its root. -/
theorem Tree.ReachableWith.admissible_root (h : t.ReachableWith Payload.Made) :
    ∃ package items, t.snapshot? t.root = some (.node (.compilationUnit package) items) ∧
      (Snapshot.node (.compilationUnit package) items).Admissible := by
  have hwf := h.reachable.wellFormed
  obtain ⟨b, hb, hid, held⟩ := hwf.exists_branch? hwf.root_live
  have hadmissible : b.snapshot.Admissible :=
    held.admissible hwf fun id payload hpayload => Payload.made_iff.mp (h.admissible hpayload)
  have hkind := held.kind
  rw [hid, h.reachable.kind?_root] at hkind
  obtain ⟨id, payload, children⟩ := b
  cases payload with
  | compilationUnit package =>
    exact ⟨package, Branch.snapshots children, by rw [snapshot?, hb]; rfl, hadmissible⟩
  | _ => cases hkind

end Spellable

section Drafts

mutual

/-- The forms of the draft give the payloads of the branch. -/
def Draft.Spells : Draft → Snapshot → Prop
  | node _ form drafts, .node payload children =>
    form.payload = .ok payload ∧ Draft.SpellAll drafts children

def Draft.SpellAll : List Draft → List Snapshot → Prop
  | [], [] => True
  | d :: ds, s :: ss => d.Spells s ∧ Draft.SpellAll ds ss
  | _, _ => False

end

mutual

/-- A draft spells one branch at most. -/
theorem Draft.Spells.unique : {d : Draft} → {s s' : Snapshot} → d.Spells s → d.Spells s' → s = s'
  | .node _ _ _, .node _ _, .node _ _, ⟨hform, hchildren⟩, ⟨hform', hchildren'⟩ => by
    rw [hform] at hform'
    rw [Except.ok.inj hform', hchildren.unique hchildren']

theorem Draft.SpellAll.unique : {ds : List Draft} → {ss ss' : List Snapshot} →
    Draft.SpellAll ds ss → Draft.SpellAll ds ss' → ss = ss'
  | [], [], [], _, _ => rfl
  | _ :: _, _ :: _, _ :: _, ⟨hfirst, hrest⟩, ⟨hfirst', hrest'⟩ => by
    rw [hfirst.unique hfirst', hrest.unique hrest']

end

theorem Draft.Spells.kind {d : Draft} {s : Snapshot} (h : d.Spells s) : s.kind = d.form.kind := by
  obtain ⟨start, form, children⟩ := d
  obtain ⟨payload, ss⟩ := s
  exact Form.kind_of_payload h.1

theorem Draft.SpellAll.exists_snapshot {ds : List Draft} {ss : List Snapshot}
    (h : Draft.SpellAll ds ss) {d : Draft} (hd : d ∈ ds) :
    ∃ s ∈ ss, d.Spells s := by
  induction ds generalizing ss with
  | nil => cases hd
  | cons first ds ih =>
    cases ss with
    | nil => cases h
    | cons s ss =>
      rcases List.mem_cons.mp hd with rfl | hd
      · exact ⟨s, List.mem_cons_self, h.1⟩
      · obtain ⟨s', hs', hspells⟩ := ih h.2 hd
        exact ⟨s', List.mem_cons_of_mem s hs', hspells⟩

theorem Draft.SpellAll.exists_draft {ds : List Draft} {ss : List Snapshot}
    (h : Draft.SpellAll ds ss) {s : Snapshot} (hs : s ∈ ss) :
    ∃ d ∈ ds, d.Spells s := by
  induction ds generalizing ss with
  | nil =>
    cases ss with
    | nil => cases hs
    | cons s ss => cases h
  | cons first ds ih =>
    cases ss with
    | nil => cases hs
    | cons s' ss =>
      rcases List.mem_cons.mp hs with rfl | hs
      · exact ⟨first, List.mem_cons_self, h.1⟩
      · obtain ⟨d, hd, hspells⟩ := ih h.2 hs
        exact ⟨d, List.mem_cons_of_mem first hd, hspells⟩

theorem Draft.SpellAll.append {ds ds' : List Draft} {ss ss' : List Snapshot}
    (h : Draft.SpellAll ds ss) (h' : Draft.SpellAll ds' ss') :
    Draft.SpellAll (ds ++ ds') (ss ++ ss') := by
  induction ds generalizing ss with
  | nil =>
    cases ss with
    | nil => exact h'
    | cons s ss => cases h
  | cons d ds ih =>
    cases ss with
    | nil => cases h
    | cons s ss => exact ⟨h.1, ih h.2⟩

end Drafts

end ProgramTree
