import ProgramTree.Layout
import Mathlib.Data.List.Basic

/-! # Parts of admissible layouts

Reading a child list only goes forward through the sections, and what can be
read in a later section can be read in an earlier one. So every sublist of an
admissible list is admissible: taking children away needs no check. What an
admissible list looks like depends on the kind of the parent: a list of items,
of statements, or of statements with clauses behind them. -/

namespace ProgramTree.Layout

set_option autoImplicit false

/-- The place of a section in the order in which a child list is read. -/
def Section.rank : Section → Nat
  | body => 0
  | elseIfs => 1
  | closed => 2

theorem check_eq_ok_iff (parent : NodeKind) (kinds : List NodeKind) :
    check parent kinds = .ok () ↔ ∃ reached, readFrom parent .body kinds = .ok reached := by
  unfold check
  cases readFrom parent .body kinds <;> simp

theorem readFrom_cons_eq_ok_iff (parent : NodeKind) (reached final : Section) (child : NodeKind)
    (rest : List NodeKind) :
    readFrom parent reached (child :: rest) = .ok final ↔
      ∃ following, next parent reached child = .ok following ∧
        readFrom parent following rest = .ok final := by
  simp only [readFrom]
  cases next parent reached child <;> simp

/-- Only two kinds of parent tell the sections apart. -/
theorem next_cases (parent : NodeKind) :
    next parent = nextInIf ∨ next parent = nextInTry ∨
      ∃ fits : NodeKind → Bool, ∀ reached child, next parent reached child =
        if fits child then .ok reached else .error (.notAllowed child) := by
  cases parent with
  | ifStatement => exact Or.inl rfl
  | tryStatement => exact Or.inr (Or.inl rfl)
  | compilationUnit =>
    refine Or.inr (Or.inr ⟨fun child => child = .function ∨ child = .comment, ?_⟩)
    intro reached child
    simp [next]
  | function | block | elseIfClause | elseClause | whileLoop | catchClause =>
    refine Or.inr (Or.inr ⟨NodeKind.isStatement, ?_⟩)
    intro reached child
    simp [next, NodeKind.hasBody]
  | _ =>
    refine Or.inr (Or.inr ⟨fun _ => false, ?_⟩)
    intro reached child
    simp [next, NodeKind.hasBody]

/-- In an `if` the body comes before the else-if clauses, and these before the else clause. -/
theorem nextInIf_eq_ok_iff {reached following : Section} {child : NodeKind} :
    nextInIf reached child = .ok following ↔
      child.isStatement = true ∧ reached = .body ∧ following = .body ∨
      child = .elseIfClause ∧ reached ≠ .closed ∧ following = .elseIfs ∨
      child = .elseClause ∧ reached ≠ .closed ∧ following = .closed := by
  cases reached <;> cases child <;> simp [nextInIf, NodeKind.isStatement, eq_comm]

theorem nextInTry_eq_ok_iff {reached following : Section} {child : NodeKind} :
    nextInTry reached child = .ok following ↔
      child.isStatement = true ∧ reached = .body ∧ following = .body ∨
      child = .catchClause ∧ reached = .body ∧ following = .closed := by
  cases reached <;> cases child <;> simp [nextInTry, NodeKind.isStatement, eq_comm]

/-- Reading goes forward. -/
theorem rank_le_of_next {parent child : NodeKind} {reached following : Section}
    (h : next parent reached child = .ok following) : reached.rank ≤ following.rank := by
  rcases next_cases parent with hif | htry | ⟨fits, hfits⟩
  · rw [hif, nextInIf_eq_ok_iff] at h
    rcases h with ⟨_, rfl, rfl⟩ | ⟨_, hopen, rfl⟩ | ⟨_, _, rfl⟩
    · exact Nat.le_refl _
    · cases reached with
      | closed => exact absurd rfl hopen
      | body | elseIfs => decide
    · cases reached <;> decide
  · rw [htry, nextInTry_eq_ok_iff] at h
    rcases h with ⟨_, rfl, rfl⟩ | ⟨_, rfl, rfl⟩ <;> decide
  · rw [hfits] at h
    split at h
    · cases h
      exact Nat.le_refl _
    · cases h

theorem Section.eq_body_of_rank_le {earlier : Section} (h : earlier.rank ≤ Section.body.rank) :
    earlier = .body := by
  cases earlier with
  | body => rfl
  | elseIfs | closed => cases h

/-- What fits in a section fits in every earlier one. -/
theorem next_earlier {parent child : NodeKind} {reached following earlier : Section}
    (h : next parent reached child = .ok following) (hle : earlier.rank ≤ reached.rank) :
    ∃ other, next parent earlier child = .ok other ∧ other.rank ≤ following.rank := by
  have hopen : reached ≠ .closed → earlier ≠ .closed := by
    rintro hreached rfl
    cases reached with
    | closed => exact hreached rfl
    | body | elseIfs => revert hle; decide
  rcases next_cases parent with hif | htry | ⟨fits, hfits⟩
  · rw [hif, nextInIf_eq_ok_iff] at h
    refine ⟨following, ?_, Nat.le_refl _⟩
    rw [hif, nextInIf_eq_ok_iff]
    rcases h with ⟨hchild, rfl, hfollowing⟩ | ⟨hchild, hreached, hfollowing⟩ |
      ⟨hchild, hreached, hfollowing⟩
    · exact Or.inl ⟨hchild, Section.eq_body_of_rank_le hle, hfollowing⟩
    · exact Or.inr (Or.inl ⟨hchild, hopen hreached, hfollowing⟩)
    · exact Or.inr (Or.inr ⟨hchild, hopen hreached, hfollowing⟩)
  · rw [htry, nextInTry_eq_ok_iff] at h
    refine ⟨following, ?_, Nat.le_refl _⟩
    rw [htry, nextInTry_eq_ok_iff]
    rcases h with ⟨hchild, rfl, hfollowing⟩ | ⟨hchild, rfl, hfollowing⟩
    · exact Or.inl ⟨hchild, Section.eq_body_of_rank_le hle, hfollowing⟩
    · exact Or.inr ⟨hchild, Section.eq_body_of_rank_le hle, hfollowing⟩
  · rw [hfits] at h ⊢
    split at h
    · rename_i hfit
      cases h
      exact ⟨earlier, by rw [if_pos hfit], hle⟩
    · cases h

theorem readFrom_sublist {parent : NodeKind} {kinds part : List NodeKind}
    (hsub : part.Sublist kinds) {reached final earlier : Section}
    (h : readFrom parent reached kinds = .ok final) (hle : earlier.rank ≤ reached.rank) :
    ∃ other, readFrom parent earlier part = .ok other := by
  induction hsub generalizing reached earlier with
  | slnil => exact ⟨earlier, rfl⟩
  | cons child _ ih =>
    obtain ⟨following, hnext, hrest⟩ := (readFrom_cons_eq_ok_iff ..).mp h
    exact ih hrest (Nat.le_trans hle (rank_le_of_next hnext))
  | cons_cons child _ ih =>
    obtain ⟨following, hnext, hrest⟩ := (readFrom_cons_eq_ok_iff ..).mp h
    obtain ⟨other, hother, hrank⟩ := next_earlier hnext hle
    obtain ⟨last, hlast⟩ := ih hrest hrank
    exact ⟨last, (readFrom_cons_eq_ok_iff ..).mpr ⟨other, hother, hlast⟩⟩

theorem check_sublist {parent : NodeKind} {kinds part : List NodeKind}
    (h : check parent kinds = .ok ()) (hsub : part.Sublist kinds) : check parent part = .ok () := by
  obtain ⟨final, hfinal⟩ := (check_eq_ok_iff ..).mp h
  exact (check_eq_ok_iff ..).mpr (readFrom_sublist hsub hfinal (Nat.le_refl _))

theorem check_nil (parent : NodeKind) : check parent [] = .ok () := rfl

section Shapes

variable {parent : NodeKind} {kinds : List NodeKind} {reached final : Section}

/-- Without sections every child passes the same test. -/
theorem fits_of_readFrom (fits : NodeKind → Bool)
    (hnext : ∀ reached child, next parent reached child =
      if fits child then .ok reached else .error (.notAllowed child))
    (h : readFrom parent reached kinds = .ok final) : ∀ kind ∈ kinds, fits kind = true := by
  induction kinds generalizing reached with
  | nil => simp
  | cons child rest ih =>
    obtain ⟨following, hchild, hrest⟩ := (readFrom_cons_eq_ok_iff ..).mp h
    rw [hnext] at hchild
    split at hchild
    · rename_i hfit
      exact List.forall_mem_cons.mpr ⟨hfit, ih hrest⟩
    · cases hchild

theorem items_of_check (h : check .compilationUnit kinds = .ok ()) :
    ∀ kind ∈ kinds, kind = .function ∨ kind = .comment := by
  obtain ⟨final, hfinal⟩ := (check_eq_ok_iff ..).mp h
  have hall := fits_of_readFrom (fun child => child = .function ∨ child = .comment)
    (fun reached child => by simp [next]) hfinal
  simpa using hall

theorem statements_of_check (hbody : parent.hasBody = true) (hif : parent ≠ .ifStatement)
    (htry : parent ≠ .tryStatement) (h : check parent kinds = .ok ()) :
    ∀ kind ∈ kinds, kind.isStatement = true := by
  obtain ⟨final, hfinal⟩ := (check_eq_ok_iff ..).mp h
  refine fits_of_readFrom NodeKind.isStatement (fun reached child => ?_) hfinal
  cases parent <;> simp_all [next, NodeKind.hasBody]

theorem eq_nil_of_check (hbody : parent.hasBody = false) (hunit : parent ≠ .compilationUnit)
    (h : check parent kinds = .ok ()) : kinds = [] := by
  obtain ⟨final, hfinal⟩ := (check_eq_ok_iff ..).mp h
  have hall := fits_of_readFrom (fun _ => false)
    (fun reached child => by cases parent <;> simp_all [next, NodeKind.hasBody]) hfinal
  exact List.eq_nil_iff_forall_not_mem.mpr fun kind hkind => Bool.false_ne_true (hall kind hkind)

theorem readFrom_if_closed (h : readFrom .ifStatement .closed kinds = .ok final) : kinds = [] := by
  cases kinds with
  | nil => rfl
  | cons child rest =>
    obtain ⟨following, hchild, _⟩ := (readFrom_cons_eq_ok_iff ..).mp h
    rcases nextInIf_eq_ok_iff.mp hchild with ⟨_, hbody, _⟩ | ⟨_, hopen, _⟩ | ⟨_, hopen, _⟩
    · cases hbody
    · exact absurd rfl hopen
    · exact absurd rfl hopen

theorem readFrom_if_elseIfs (h : readFrom .ifStatement .elseIfs kinds = .ok final) :
    ∃ elseIfs last, kinds = elseIfs ++ last ∧ (∀ kind ∈ elseIfs, kind = .elseIfClause) ∧
      (last = [] ∨ last = [.elseClause]) := by
  induction kinds with
  | nil => exact ⟨[], [], rfl, by simp, Or.inl rfl⟩
  | cons child rest ih =>
    obtain ⟨following, hchild, hrest⟩ := (readFrom_cons_eq_ok_iff ..).mp h
    rcases nextInIf_eq_ok_iff.mp hchild with ⟨_, hbody, _⟩ | ⟨rfl, _, rfl⟩ | ⟨rfl, _, rfl⟩
    · cases hbody
    · obtain ⟨elseIfs, last, rfl, hall, hlast⟩ := ih hrest
      exact ⟨.elseIfClause :: elseIfs, last, rfl, List.forall_mem_cons.mpr ⟨rfl, hall⟩, hlast⟩
    · exact ⟨[], [.elseClause], by rw [readFrom_if_closed hrest]; rfl, by simp, Or.inr rfl⟩

/-- A body, then else-if clauses, then at most one else clause. -/
theorem clauses_of_check_if (h : check .ifStatement kinds = .ok ()) :
    ∃ body elseIfs last, kinds = body ++ (elseIfs ++ last) ∧
      (∀ kind ∈ body, kind.isStatement = true) ∧ (∀ kind ∈ elseIfs, kind = .elseIfClause) ∧
      (last = [] ∨ last = [.elseClause]) := by
  obtain ⟨final, hfinal⟩ := (check_eq_ok_iff ..).mp h
  clear h
  induction kinds with
  | nil => exact ⟨[], [], [], rfl, by simp, by simp, Or.inl rfl⟩
  | cons child rest ih =>
    obtain ⟨following, hchild, hrest⟩ := (readFrom_cons_eq_ok_iff ..).mp hfinal
    rcases nextInIf_eq_ok_iff.mp hchild with ⟨hstatement, _, rfl⟩ | ⟨rfl, _, rfl⟩ | ⟨rfl, _, rfl⟩
    · obtain ⟨body, elseIfs, last, rfl, hbody, helseIfs⟩ := ih hrest
      exact ⟨child :: body, elseIfs, last, rfl, List.forall_mem_cons.mpr ⟨hstatement, hbody⟩,
        helseIfs⟩
    · obtain ⟨elseIfs, last, rfl, hall, hlast⟩ := readFrom_if_elseIfs hrest
      exact ⟨[], .elseIfClause :: elseIfs, last, rfl, by simp,
        List.forall_mem_cons.mpr ⟨rfl, hall⟩, hlast⟩
    · exact ⟨[], [], [.elseClause], by rw [readFrom_if_closed hrest]; rfl, by simp, by simp,
        Or.inr rfl⟩

theorem clauses_of_check_try (h : check .tryStatement kinds = .ok ()) :
    ∃ body last, kinds = body ++ last ∧ (∀ kind ∈ body, kind.isStatement = true) ∧
      (last = [] ∨ last = [.catchClause]) := by
  obtain ⟨final, hfinal⟩ := (check_eq_ok_iff ..).mp h
  clear h
  induction kinds with
  | nil => exact ⟨[], [], rfl, by simp, Or.inl rfl⟩
  | cons child rest ih =>
    obtain ⟨following, hchild, hrest⟩ := (readFrom_cons_eq_ok_iff ..).mp hfinal
    rcases nextInTry_eq_ok_iff.mp hchild with ⟨hstatement, _, rfl⟩ | ⟨rfl, _, rfl⟩
    · obtain ⟨body, last, rfl, hbody, hlast⟩ := ih hrest
      exact ⟨child :: body, last, rfl, List.forall_mem_cons.mpr ⟨hstatement, hbody⟩, hlast⟩
    · -- Nothing comes after the catch clause.
      have hnone : rest = [] := by
        cases rest with
        | nil => rfl
        | cons child rest =>
          obtain ⟨following, hchild, _⟩ := (readFrom_cons_eq_ok_iff ..).mp hrest
          rcases nextInTry_eq_ok_iff.mp hchild with ⟨_, hbody, _⟩ | ⟨_, hbody, _⟩ <;> cases hbody
      exact ⟨[], [.catchClause], by rw [hnone]; rfl, by simp, Or.inr rfl⟩

/-- Below a unit there are only statements and clauses. -/
theorem statement_or_clause_of_check (hunit : parent ≠ .compilationUnit)
    (h : check parent kinds = .ok ()) :
    ∀ kind ∈ kinds, kind.isStatement = true ∨ kind.isClause = true := by
  intro kind hkind
  by_cases hif : parent = .ifStatement
  · subst hif
    obtain ⟨body, elseIfs, last, rfl, hbody, helseIfs, hlast⟩ := clauses_of_check_if h
    rcases List.mem_append.mp hkind with hkind | hkind
    · exact Or.inl (hbody kind hkind)
    rcases List.mem_append.mp hkind with hkind | hkind
    · rw [helseIfs kind hkind]
      exact Or.inr rfl
    · rcases hlast with rfl | rfl
      · cases hkind
      · rw [List.mem_singleton.mp hkind]
        exact Or.inr rfl
  by_cases htry : parent = .tryStatement
  · subst htry
    obtain ⟨body, last, rfl, hbody, hlast⟩ := clauses_of_check_try h
    rcases List.mem_append.mp hkind with hkind | hkind
    · exact Or.inl (hbody kind hkind)
    · rcases hlast with rfl | rfl
      · cases hkind
      · rw [List.mem_singleton.mp hkind]
        exact Or.inr rfl
  cases hbody : parent.hasBody with
  | true => exact Or.inl (statements_of_check hbody hif htry h kind hkind)
  | false =>
    rw [eq_nil_of_check hbody hunit h] at hkind
    cases hkind

end Shapes

section Accepted

variable {parent : NodeKind} {kinds rest : List NodeKind} {reached final : Section}

/-- What is read in parts is read as a whole. -/
theorem readFrom_append {middle : Section} (h : readFrom parent reached kinds = .ok middle)
    (h' : readFrom parent middle rest = .ok final) :
    readFrom parent reached (kinds ++ rest) = .ok final := by
  induction kinds generalizing reached with
  | nil =>
    cases h
    exact h'
  | cons child kinds ih =>
    obtain ⟨following, hchild, hkinds⟩ := (readFrom_cons_eq_ok_iff ..).mp h
    exact (readFrom_cons_eq_ok_iff ..).mpr ⟨following, hchild, ih hkinds⟩

/-- Children that do not lead out of a section are read in it. -/
theorem readFrom_stays (h : ∀ child ∈ kinds, next parent reached child = .ok reached) :
    readFrom parent reached kinds = .ok reached := by
  induction kinds with
  | nil => rfl
  | cons child kinds ih =>
    obtain ⟨hchild, hkinds⟩ := List.forall_mem_cons.mp h
    exact (readFrom_cons_eq_ok_iff ..).mpr ⟨reached, hchild, ih hkinds⟩

theorem check_of_items (h : ∀ kind ∈ kinds, kind = .function ∨ kind = .comment) :
    check .compilationUnit kinds = .ok () :=
  (check_eq_ok_iff ..).mpr ⟨.body, readFrom_stays fun child hchild => if_pos (h child hchild)⟩

theorem next_statement (hbody : parent.hasBody = true) {child : NodeKind}
    (hchild : child.isStatement = true) : next parent .body child = .ok .body := by
  cases parent with
  | ifStatement => exact nextInIf_eq_ok_iff.mpr (Or.inl ⟨hchild, rfl, rfl⟩)
  | tryStatement => exact nextInTry_eq_ok_iff.mpr (Or.inl ⟨hchild, rfl, rfl⟩)
  | compilationUnit => cases hbody
  | _ => simp [next, hbody, hchild]

theorem readFrom_statements (hbody : parent.hasBody = true)
    (h : ∀ kind ∈ kinds, kind.isStatement = true) :
    readFrom parent .body kinds = .ok .body :=
  readFrom_stays fun child hchild => next_statement hbody (h child hchild)

theorem check_of_statements (hbody : parent.hasBody = true)
    (h : ∀ kind ∈ kinds, kind.isStatement = true) : check parent kinds = .ok () :=
  (check_eq_ok_iff ..).mpr ⟨.body, readFrom_statements hbody h⟩

theorem readFrom_elseIfs (h : ∀ kind ∈ kinds, kind = .elseIfClause) (hopen : reached ≠ .closed) :
    ∃ final, readFrom .ifStatement reached kinds = .ok final ∧ final ≠ .closed := by
  cases kinds with
  | nil => exact ⟨reached, rfl, hopen⟩
  | cons child rest =>
    obtain ⟨rfl, hrest⟩ := List.forall_mem_cons.mp h
    refine ⟨.elseIfs, (readFrom_cons_eq_ok_iff ..).mpr ⟨.elseIfs, ?_, ?_⟩, nofun⟩
    · exact nextInIf_eq_ok_iff.mpr (Or.inr (Or.inl ⟨rfl, hopen, rfl⟩))
    · refine readFrom_stays fun child hchild => ?_
      exact nextInIf_eq_ok_iff.mpr (Or.inr (Or.inl ⟨hrest child hchild, nofun, rfl⟩))

theorem readFrom_else (hopen : reached ≠ .closed) :
    readFrom .ifStatement reached [.elseClause] = .ok .closed :=
  (readFrom_cons_eq_ok_iff ..).mpr
    ⟨.closed, nextInIf_eq_ok_iff.mpr (Or.inr (Or.inr ⟨rfl, hopen, rfl⟩)), rfl⟩

theorem check_of_clauses_if {body elseIfs last : List NodeKind}
    (hbody : ∀ kind ∈ body, kind.isStatement = true)
    (helseIfs : ∀ kind ∈ elseIfs, kind = .elseIfClause) (hlast : last = [] ∨ last = [.elseClause]) :
    check .ifStatement (body ++ (elseIfs ++ last)) = .ok () := by
  obtain ⟨middle, hmiddle, hopen⟩ := readFrom_elseIfs helseIfs (nofun : Section.body ≠ .closed)
  have hclauses : ∃ final, readFrom .ifStatement .body (elseIfs ++ last) = .ok final := by
    rcases hlast with rfl | rfl
    · exact ⟨middle, readFrom_append hmiddle rfl⟩
    · exact ⟨.closed, readFrom_append hmiddle (readFrom_else hopen)⟩
  obtain ⟨final, hfinal⟩ := hclauses
  exact (check_eq_ok_iff ..).mpr ⟨final, readFrom_append (readFrom_statements rfl hbody) hfinal⟩

theorem check_of_clauses_try {body last : List NodeKind}
    (hbody : ∀ kind ∈ body, kind.isStatement = true) (hlast : last = [] ∨ last = [.catchClause]) :
    check .tryStatement (body ++ last) = .ok () := by
  have hclauses : ∃ final, readFrom .tryStatement .body last = .ok final := by
    rcases hlast with rfl | rfl
    · exact ⟨.body, rfl⟩
    · exact ⟨.closed, rfl⟩
  obtain ⟨final, hfinal⟩ := hclauses
  exact (check_eq_ok_iff ..).mpr ⟨final, readFrom_append (readFrom_statements rfl hbody) hfinal⟩

end Accepted

end ProgramTree.Layout
