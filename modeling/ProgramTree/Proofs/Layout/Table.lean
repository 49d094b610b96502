import ProgramTree.Proofs.Layout

/-! # The table of layouts

For each kind of parent the table says which lists of kinds its children may
form, without reading them from the left. Reading accepts exactly the lists of
the table. A list that is not in it is refused for the last child of its
shortest beginning that is not in it, and that child decides the fault: either
it never stands under such a parent, or it stands there elsewhere. -/

namespace ProgramTree.Layout

set_option autoImplicit false

/-- The lists of kinds that the children of a parent may have. -/
def Tabled : NodeKind → List NodeKind → Prop
  | .compilationUnit, kinds => ∀ kind ∈ kinds, kind = .function ∨ kind = .comment
  | .function, kinds | .block, kinds | .whileLoop, kinds | .elseIfClause, kinds
  | .elseClause, kinds | .catchClause, kinds => ∀ kind ∈ kinds, kind.isStatement = true
  | .ifStatement, kinds => ∃ body elseIfs last, kinds = body ++ (elseIfs ++ last) ∧
      (∀ kind ∈ body, kind.isStatement = true) ∧ (∀ kind ∈ elseIfs, kind = .elseIfClause) ∧
      (last = [] ∨ last = [.elseClause])
  | .tryStatement, kinds => ∃ body last, kinds = body ++ last ∧
      (∀ kind ∈ body, kind.isStatement = true) ∧ (last = [] ∨ last = [.catchClause])
  | _, kinds => kinds = []

/-- The child stands in some list of the table. -/
def MayStand (parent child : NodeKind) : Prop :=
  ∃ kinds, Tabled parent kinds ∧ child ∈ kinds

/-- What is wrong with a child that may stand under the parent, but not where it does. -/
def misplacement : NodeKind → NodeKind → OrderFault
  | .tryStatement, .catchClause => .secondCatch
  | .tryStatement, _ => .statementAfterCatch
  | _, .elseIfClause => .elseIfAfterElse
  | _, .elseClause => .secondElse
  | _, _ => .statementAfterElse

/-- The fault of a child that cannot go on the list before it. -/
inductive FaultOf (parent child : NodeKind) : Fault → Prop
  | stranger : ¬ MayStand parent child → FaultOf parent child (.notAllowed child)
  | misplaced : MayStand parent child →
      FaultOf parent child (.outOfOrder (misplacement parent child))

/-- The child ends the shortest beginning of the list that is not in the table. -/
structure RefusedAt (parent : NodeKind) (kinds before : List NodeKind) (child : NodeKind) :
    Prop where
  begins : before ++ [child] <+: kinds
  tabled : ∀ part, part <+: before → Tabled parent part
  refused : ¬ Tabled parent (before ++ [child])

variable {parent child : NodeKind} {kinds : List NodeKind} {fault fault' : Fault}

theorem FaultOf.unique (h : FaultOf parent child fault) (h' : FaultOf parent child fault') :
    fault = fault' := by
  cases h with
  | stranger hnot =>
    cases h' with
    | stranger => rfl
    | misplaced hmay => exact absurd hmay hnot
  | misplaced hmay =>
    cases h' with
    | stranger hnot => exact absurd hmay hnot
    | misplaced => rfl

theorem check_eq_ok_iff_tabled (parent : NodeKind) (kinds : List NodeKind) :
    check parent kinds = .ok () ↔ Tabled parent kinds := by
  cases parent with
  | compilationUnit => exact ⟨items_of_check, check_of_items⟩
  | function | block | whileLoop | elseIfClause | elseClause | catchClause =>
    exact ⟨statements_of_check rfl nofun nofun, check_of_statements rfl⟩
  | ifStatement =>
    refine ⟨clauses_of_check_if, ?_⟩
    rintro ⟨body, elseIfs, last, rfl, hbody, helseIfs, hlast⟩
    exact check_of_clauses_if hbody helseIfs hlast
  | tryStatement =>
    refine ⟨clauses_of_check_try, ?_⟩
    rintro ⟨body, last, rfl, hbody, hlast⟩
    exact check_of_clauses_try hbody hlast
  | _ =>
    refine ⟨eq_nil_of_check rfl nofun, ?_⟩
    rintro rfl
    exact check_nil _

/-- What is left of a list of the table is in the table. -/
theorem Tabled.sublist {part : List NodeKind} (h : Tabled parent kinds)
    (hsub : part.Sublist kinds) : Tabled parent part := by
  rw [← check_eq_ok_iff_tabled] at h ⊢
  exact check_sublist h hsub

/-- A child that may stand under a parent may be its only one. -/
theorem mayStand_iff :
    MayStand parent child ↔ ∃ reached, next parent .body child = .ok reached := by
  constructor
  · rintro ⟨kinds, hkinds, hchild⟩
    have halone := hkinds.sublist (List.singleton_sublist.mpr hchild)
    rw [← check_eq_ok_iff_tabled, check_eq_ok_iff] at halone
    obtain ⟨final, hfinal⟩ := halone
    obtain ⟨reached, hreached, _⟩ := (readFrom_cons_eq_ok_iff ..).mp hfinal
    exact ⟨reached, hreached⟩
  · rintro ⟨reached, hreached⟩
    refine ⟨[child], (check_eq_ok_iff_tabled ..).mp ?_, List.mem_singleton_self child⟩
    exact (check_eq_ok_iff ..).mpr
      ⟨reached, (readFrom_cons_eq_ok_iff ..).mpr ⟨reached, hreached, rfl⟩⟩

theorem nextInIf_eq_error {reached : Section} (h : nextInIf reached child = .error fault) :
    (∃ following, nextInIf .body child = .ok following) ∧
        fault = .outOfOrder (misplacement .ifStatement child) ∨
      nextInIf .body child = .error fault ∧ fault = .notAllowed child := by
  cases reached <;> cases child <;> cases h <;> simp [nextInIf, misplacement, NodeKind.isStatement]

theorem nextInTry_eq_error {reached : Section} (h : nextInTry reached child = .error fault) :
    (∃ following, nextInTry .body child = .ok following) ∧
        fault = .outOfOrder (misplacement .tryStatement child) ∨
      nextInTry .body child = .error fault ∧ fault = .notAllowed child := by
  cases reached <;> cases child <;> cases h <;> simp [nextInTry, misplacement, NodeKind.isStatement]

/-- A child that is refused in some section is refused in the body or is misplaced. -/
theorem next_eq_error {reached : Section} (h : next parent reached child = .error fault) :
    (∃ following, next parent .body child = .ok following) ∧
        fault = .outOfOrder (misplacement parent child) ∨
      next parent .body child = .error fault ∧ fault = .notAllowed child := by
  cases parent with
  | ifStatement => exact nextInIf_eq_error h
  | tryStatement => exact nextInTry_eq_error h
  | _ =>
    -- the other parents have one test for all sections
    refine Or.inr ?_
    simp only [next] at h ⊢
    split at h
    · cases h
    · rename_i hnot
      cases h
      exact ⟨if_neg hnot, rfl⟩

/-- A child is refused for what it is under its parent, whatever was read before it. -/
theorem faultOf_of_next {reached : Section} (h : next parent reached child = .error fault) :
    FaultOf parent child fault := by
  rcases next_eq_error h with ⟨hmay, rfl⟩ | ⟨hbody, rfl⟩
  · exact .misplaced (mayStand_iff.mpr hmay)
  · refine .stranger fun hmay => ?_
    obtain ⟨following, hfollowing⟩ := mayStand_iff.mp hmay
    rw [hbody] at hfollowing
    cases hfollowing

theorem check_eq_error_iff (parent : NodeKind) (kinds : List NodeKind) (fault : Fault) :
    check parent kinds = .error fault ↔ readFrom parent .body kinds = .error fault := by
  unfold check
  cases readFrom parent .body kinds <;> simp

/-- Reading fails at the first child that does not fit the section reached by those before it. -/
theorem readFrom_eq_error_iff {reached : Section} :
    readFrom parent reached kinds = .error fault ↔
      ∃ before child after middle, kinds = before ++ child :: after ∧
        readFrom parent reached before = .ok middle ∧ next parent middle child = .error fault := by
  induction kinds generalizing reached with
  | nil => simp [readFrom]
  | cons first rest ih =>
    simp only [readFrom]
    cases hfirst : next parent reached first with
    | error other =>
      constructor
      · intro h
        cases h
        exact ⟨[], first, rest, reached, rfl, rfl, hfirst⟩
      · rintro ⟨before, child, after, middle, hsplit, hbefore, hchild⟩
        rcases List.cons_eq_append_iff.mp hsplit with ⟨rfl, hrest⟩ | ⟨before, rfl, _⟩
        · cases hrest
          cases hbefore
          rw [hfirst] at hchild
          exact hchild
        · obtain ⟨following, hfollowing, _⟩ := (readFrom_cons_eq_ok_iff ..).mp hbefore
          rw [hfirst] at hfollowing
          cases hfollowing
    | ok following =>
      rw [ih]
      constructor
      · rintro ⟨before, child, after, middle, rfl, hbefore, hchild⟩
        exact ⟨first :: before, child, after, middle, rfl,
          (readFrom_cons_eq_ok_iff ..).mpr ⟨following, hfirst, hbefore⟩, hchild⟩
      · rintro ⟨before, child, after, middle, hsplit, hbefore, hchild⟩
        rcases List.cons_eq_append_iff.mp hsplit with ⟨rfl, hrest⟩ | ⟨before, rfl, rfl⟩
        · cases hrest
          cases hbefore
          rw [hfirst] at hchild
          cases hchild
        · obtain ⟨other, hother, hbefore⟩ := (readFrom_cons_eq_ok_iff ..).mp hbefore
          rw [hfirst] at hother
          cases hother
          exact ⟨before, child, after, middle, rfl, hbefore, hchild⟩

theorem refusedAt_of_next {before after : List NodeKind} {middle : Section}
    (hbefore : readFrom parent .body before = .ok middle)
    (hchild : next parent middle child = .error fault) :
    RefusedAt parent (before ++ child :: after) before child where
  begins := ⟨after, by simp⟩
  tabled := by
    intro part hpart
    have htabled := (check_eq_ok_iff_tabled ..).mp ((check_eq_ok_iff ..).mpr ⟨middle, hbefore⟩)
    exact htabled.sublist hpart.sublist
  refused := by
    rw [← check_eq_ok_iff_tabled, (check_eq_error_iff ..).mpr (readFrom_eq_error_iff.mpr
      ⟨before, child, [], middle, rfl, hbefore, hchild⟩)]
    exact nofun

theorem next_of_refusedAt {before : List NodeKind} (h : RefusedAt parent kinds before child) :
    ∃ after middle fault, kinds = before ++ child :: after ∧
      readFrom parent .body before = .ok middle ∧ next parent middle child = .error fault := by
  obtain ⟨after, hafter⟩ := h.begins
  obtain ⟨middle, hmiddle⟩ := (check_eq_ok_iff ..).mp
    ((check_eq_ok_iff_tabled ..).mpr (h.tabled before (List.prefix_refl before)))
  cases hchild : next parent middle child with
  | error fault => exact ⟨after, middle, fault, by simpa using hafter.symm, hmiddle, hchild⟩
  | ok final =>
    refine absurd ?_ h.refused
    rw [← check_eq_ok_iff_tabled, check_eq_ok_iff]
    exact ⟨final, readFrom_append hmiddle ((readFrom_cons_eq_ok_iff ..).mpr ⟨final, hchild, rfl⟩)⟩

/-- Reading accepts the lists of the table, and refuses every other one with the fault of the child
that ends the shortest beginning which is not in the table. An accepted list without one of its
children is accepted. -/
theorem check_decides_table (parent : NodeKind) (kinds : List NodeKind) :
    (check parent kinds = .ok () ↔ Tabled parent kinds) ∧
    (∀ fault, check parent kinds = .error fault ↔
      ∃ before child, RefusedAt parent kinds before child ∧ FaultOf parent child fault) ∧
    (check parent kinds = .ok () → ∀ index, check parent (kinds.eraseIdx index) = .ok ()) := by
  refine ⟨check_eq_ok_iff_tabled parent kinds, fun fault => ⟨?_, ?_⟩, ?_⟩
  · intro h
    obtain ⟨before, child, after, middle, rfl, hbefore, hchild⟩ :=
      readFrom_eq_error_iff.mp ((check_eq_error_iff ..).mp h)
    exact ⟨before, child, refusedAt_of_next hbefore hchild, faultOf_of_next hchild⟩
  · rintro ⟨before, child, hrefused, hfault⟩
    obtain ⟨after, middle, found, rfl, hbefore, hchild⟩ := next_of_refusedAt hrefused
    rw [hfault.unique (faultOf_of_next hchild)]
    exact (check_eq_error_iff ..).mpr
      (readFrom_eq_error_iff.mpr ⟨before, child, after, middle, rfl, hbefore, hchild⟩)
  · exact fun h index => check_sublist h (List.eraseIdx_sublist kinds index)

/-- An `if` may lose its else-if clause, but a statement may not come after its else clause. -/
theorem clauses_of_if_decided :
    check .ifStatement [.breakStatement, .elseIfClause, .elseClause] = .ok () ∧
      check .ifStatement [.breakStatement, .elseClause] = .ok () ∧
      ∃ before child, RefusedAt .ifStatement [.elseClause, .breakStatement] before child ∧
        FaultOf .ifStatement child (.outOfOrder .statementAfterElse) := by
  have haccepted : check .ifStatement [.breakStatement, .elseIfClause, .elseClause] = .ok () := by
    decide
  obtain ⟨_, _, hwithout⟩ :=
    check_decides_table .ifStatement [.breakStatement, .elseIfClause, .elseClause]
  obtain ⟨_, hrefused, _⟩ := check_decides_table .ifStatement [.elseClause, .breakStatement]
  exact ⟨haccepted, hwithout haccepted 1, (hrefused _).mp (by decide)⟩

end ProgramTree.Layout
