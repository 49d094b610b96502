import ProgramTree.Proofs.Tree.Runs

/-! # The named parts of a child list

Each named part of a statement is the child list with a test of kinds applied
to it, on its own and without regard to the others. In an admissible layout the
kinds that a test is for stand next to one another, so the parts, put one
behind the other, are the child list again. -/

namespace ProgramTree.Tree

set_option autoImplicit false

/-- The nodes are live and have these kinds. -/
def HaveKinds (t : Tree) (ids : List NodeId) (kinds : List NodeKind) : Prop :=
  ids.map t.kind? = kinds.map some

/-- The nodes of which a kind test holds. -/
def passing (t : Tree) (test : NodeKind → Bool) (ids : List NodeId) : List NodeId :=
  ids.filter fun id => (t.kind? id).any test

section HaveKinds

variable {t : Tree} {ids : List NodeId} {kinds : List NodeKind} {test : NodeKind → Bool}

theorem HaveKinds.append {back : List NodeKind} (h : t.HaveKinds ids (kinds ++ back)) :
    ∃ first second, ids = first ++ second ∧ t.HaveKinds first kinds ∧ t.HaveKinds second back := by
  unfold HaveKinds at h
  rw [List.map_append] at h
  exact List.map_eq_append_iff.mp h

theorem HaveKinds.exists_kind (h : t.HaveKinds ids kinds) {id : NodeId} (hid : id ∈ ids) :
    ∃ kind ∈ kinds, t.kind? id = some kind := by
  have hmem : t.kind? id ∈ kinds.map some := h ▸ List.mem_map_of_mem hid
  obtain ⟨kind, hkind, heq⟩ := List.mem_map.mp hmem
  exact ⟨kind, hkind, heq.symm⟩

theorem HaveKinds.passing_eq (h : t.HaveKinds ids kinds) (hall : ∀ kind ∈ kinds, test kind = true) :
    t.passing test ids = ids := by
  refine List.filter_eq_self.mpr fun id hid => ?_
  obtain ⟨kind, hmem, hkind⟩ := h.exists_kind hid
  rw [hkind]
  exact hall kind hmem

theorem HaveKinds.passing_eq_nil (h : t.HaveKinds ids kinds)
    (hnone : ∀ kind ∈ kinds, test kind = false) : t.passing test ids = [] := by
  refine List.filter_eq_nil_iff.mpr fun id hid => ?_
  obtain ⟨kind, hmem, hkind⟩ := h.exists_kind hid
  rw [hkind]
  exact Bool.eq_false_iff.mp (hnone kind hmem)

theorem HaveKinds.passing_one (h : t.HaveKinds ids kinds) {only : NodeKind}
    (hall : ∀ kind ∈ kinds, kind = only) :
    t.passing test ids = if test only then ids else [] := by
  split
  · rename_i hpass
    exact h.passing_eq fun kind hmem => by rw [hall kind hmem, hpass]
  · rename_i hfail
    exact h.passing_eq_nil fun kind hmem => by rw [hall kind hmem, Bool.eq_false_iff.mpr hfail]

/-- No statement is of a kind that is no statement. -/
theorem HaveKinds.passing_statements (h : t.HaveKinds ids kinds)
    (hall : ∀ kind ∈ kinds, kind.isStatement = true) {other : NodeKind}
    (hother : other.isStatement = false) : t.passing (· == other) ids = [] := by
  refine h.passing_eq_nil fun kind hmem => beq_eq_false_iff_ne.mpr ?_
  rintro rfl
  rw [hall kind hmem] at hother
  cases hother

theorem passing_append (first second : List NodeId) :
    t.passing test (first ++ second) = t.passing test first ++ t.passing test second :=
  List.filter_append ..

theorem childrenOfKind_eq {parent : NodeId} {first second : List NodeId}
    (h : t.children parent = first ++ second) :
    t.childrenOfKind parent test = t.passing test first ++ t.passing test second := by
  rw [← passing_append, ← h]
  rfl

/-- Of at most one node the first one is the whole list. -/
theorem HaveKinds.toList_head? {kind : NodeKind} (h : t.HaveKinds ids kinds)
    (hone : kinds = [] ∨ kinds = [kind]) : ids.head?.toList = ids := by
  have hlength : ids.length = kinds.length := by
    simpa using congrArg List.length h
  rcases hone with rfl | rfl
  · rw [List.length_eq_zero_iff.mp hlength]
    rfl
  · obtain ⟨id, rfl⟩ := List.length_eq_one_iff.mp hlength
    rfl

end HaveKinds

section Parts

variable {t : Tree} (h : t.WellFormed) {id : NodeId}
include h

theorem WellFormed.exists_kinds {kind : NodeKind} (hkind : t.kind? id = some kind) :
    ∃ kinds, t.HaveKinds (t.children id) kinds ∧ Layout.check kind kinds = .ok () :=
  ⟨t.kindsOf (t.children id), h.kindsOf_children, h.layout hkind⟩

theorem WellFormed.children_eq_of_if (hkind : t.kind? id = some .ifStatement) :
    t.children id = t.statements id ++ t.elseIfClauses id ++ (t.elseClause? id).toList := by
  obtain ⟨kinds, hkinds, hlayout⟩ := h.exists_kinds hkind
  obtain ⟨body, elseIfs, last, rfl, hbody, helseIfs, hone⟩ := Layout.clauses_of_check_if hlayout
  obtain ⟨inBody, clauses, hchildren, hinBody, hclauses⟩ := hkinds.append
  obtain ⟨inElseIfs, inLast, rfl, hinElseIfs, hinLast⟩ := hclauses.append
  have hlast : ∀ kind ∈ last, kind = .elseClause := by
    rcases hone with rfl | rfl <;> simp
  have hstatements : t.statements id = inBody := by
    rw [statements, childrenOfKind_eq hchildren, passing_append, hinBody.passing_eq hbody,
      hinElseIfs.passing_one helseIfs, hinLast.passing_one hlast]
    exact List.append_nil inBody
  have helseIf : t.elseIfClauses id = inElseIfs := by
    rw [elseIfClauses, childrenOfKind_eq hchildren, passing_append,
      hinBody.passing_statements hbody rfl,
      hinElseIfs.passing_one helseIfs, hinLast.passing_one hlast]
    exact List.append_nil inElseIfs
  have helse : t.childrenOfKind id (· == .elseClause) = inLast := by
    rw [childrenOfKind_eq hchildren, passing_append,
      hinBody.passing_statements hbody rfl,
      hinElseIfs.passing_one helseIfs, hinLast.passing_one hlast]
    rfl
  rw [hstatements, helseIf, elseClause?, helse, hinLast.toList_head? hone, hchildren,
    List.append_assoc]

theorem WellFormed.children_eq_of_try (hkind : t.kind? id = some .tryStatement) :
    t.children id = t.statements id ++ (t.catchClause? id).toList := by
  obtain ⟨kinds, hkinds, hlayout⟩ := h.exists_kinds hkind
  obtain ⟨body, last, rfl, hbody, hone⟩ := Layout.clauses_of_check_try hlayout
  obtain ⟨inBody, inLast, hchildren, hinBody, hinLast⟩ := hkinds.append
  have hlast : ∀ kind ∈ last, kind = .catchClause := by
    rcases hone with rfl | rfl <;> simp
  have hstatements : t.statements id = inBody := by
    rw [statements, childrenOfKind_eq hchildren, hinBody.passing_eq hbody,
      hinLast.passing_one hlast]
    exact List.append_nil inBody
  have hcatch : t.childrenOfKind id (· == .catchClause) = inLast := by
    rw [childrenOfKind_eq hchildren,
      hinBody.passing_statements hbody rfl,
      hinLast.passing_one hlast]
    rfl
  rw [hstatements, catchClause?, hcatch, hinLast.toList_head? hone, hchildren]

theorem WellFormed.children_eq_of_body {kind : NodeKind} (hkind : t.kind? id = some kind)
    (hbody : kind.hasBody = true) (hif : kind ≠ .ifStatement) (htry : kind ≠ .tryStatement) :
    t.children id = t.statements id := by
  obtain ⟨kinds, hkinds, hlayout⟩ := h.exists_kinds hkind
  exact (hkinds.passing_eq (Layout.statements_of_check hbody hif htry hlayout)).symm

end Parts

/-- Whatever run built a tree, the named parts of a node put one behind the other are its child
list, in which no node stands twice. -/
theorem reachable_children_eq_parts {t : Tree} (h : t.Reachable) (id : NodeId) :
    (t.kind? id = some .ifStatement →
      t.children id = t.statements id ++ t.elseIfClauses id ++ (t.elseClause? id).toList) ∧
    (t.kind? id = some .tryStatement →
      t.children id = t.statements id ++ (t.catchClause? id).toList) ∧
    (∀ kind ∈ [NodeKind.function, .block, .whileLoop, .elseIfClause, .elseClause, .catchClause],
      t.kind? id = some kind → t.children id = t.statements id) ∧
    (t.children id).Nodup := by
  have hwf := h.wellFormed
  refine ⟨hwf.children_eq_of_if, hwf.children_eq_of_try, ?_, hwf.children_nodup id⟩
  intro kind hmem hkind
  have hkinds : kind.hasBody = true ∧ kind ≠ .ifStatement ∧ kind ≠ .tryStatement := by
    simp only [List.mem_cons, List.not_mem_nil, or_false] at hmem
    rcases hmem with rfl | rfl | rfl | rfl | rfl | rfl <;> exact ⟨rfl, nofun, nofun⟩
  exact hwf.children_eq_of_body hkind hkinds.1 hkinds.2.1 hkinds.2.2

/-- An `if` that got its else clause first, then an else-if clause, then a statement. -/
theorem if_children_eq_parts :
    ∃ t : Tree, t.Reachable ∧ t.kind? ⟨1, 0⟩ = some .ifStatement ∧
      t.children ⟨1, 0⟩ = [⟨4, 0⟩, ⟨3, 0⟩, ⟨2, 0⟩] ∧
      t.children ⟨1, 0⟩ = t.statements ⟨1, 0⟩ ++ t.elseIfClauses ⟨1, 0⟩ ++
        (t.elseClause? ⟨1, 0⟩).toList := by
  have hreach := (reachable_new none).run
    [.create (.ifStatement (.name "a")), .create .elseClause, .create (.elseIfClause (.name "b")),
      .create .breakStatement, .appendChild ⟨1, 0⟩ ⟨2, 0⟩, .insertChild ⟨1, 0⟩ 0 ⟨3, 0⟩,
      .insertChild ⟨1, 0⟩ 0 ⟨4, 0⟩]
  exact ⟨_, hreach, by decide, by decide, (reachable_children_eq_parts hreach ⟨1, 0⟩).1 (by decide)⟩

end ProgramTree.Tree
