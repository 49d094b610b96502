import ProgramTree.Proofs.LineEnds.Statements
import ProgramTree.Proofs.Source.RoundTrip

/-! # Trees over other line ends

Drafts that differ in the places of their nodes only give the same tree, or none
either, since a place is looked at only when a node is refused. So line ends do
not matter: a text gives a tree if and only if it does with a carriage return
before each line feed, and the trees are the same. -/

namespace ProgramTree

set_option autoImplicit false

namespace Draft

variable {source source' : List Char}

mutual

theorem Alike.corresponds : (d : Draft) → {d' : Draft} → d.Alike d' → d.Corresponds d'
  | .node _ _ children, _, .node hchildren => .node rfl (Alike.correspond children hchildren)

theorem Alike.correspond : (ds : List Draft) → {ds' : List Draft} → List.Forall₂ Alike ds ds' →
    List.Forall₂ Corresponds ds ds'
  | [], _, .nil => .nil
  | d :: ds, _, .cons h hs => .cons (Alike.corresponds d h) (Alike.correspond ds hs)

end

theorem Alike.toTree {d d' : Draft} (h : d.Alike d') :
    (d.toTree source).toOption = (d'.toTree source').toOption :=
  (Alike.corresponds d h).toTree

end Draft

theorem withReturns_eq_nil {text : List Char} (h : withReturns text = []) : text = [] := by
  rw [← List.length_eq_zero_iff]
  have hpos := length_withReturns_pos text
  rw [h] at hpos
  exact Nat.eq_zero_of_not_pos fun hlt => absurd (hpos.mpr hlt) (Nat.lt_irrefl 0)

/-- Readers that are alike take the whole of both texts, or of neither. -/
theorem Reader.Alike.run {α β : Type} {R : α → β → Prop} {text : List Char} {item : Reader α}
    {item' : Reader β} (h : Reader.Alike R text item item') :
    (∃ a b, Reader.run item text = .ok a ∧ Reader.run item' (withReturns text) = .ok b ∧ R a b) ∨
      ∃ e e', Reader.run item text = .error e ∧
        Reader.run item' (withReturns text) = .error e' := by
  rw [Reader.run, Reader.run]
  rcases h.outcomes (List.suffix_refl text) with ⟨a, b, mid, hitem, hitem', hvalue, _⟩ |
    ⟨_, _, hitem, hitem'⟩ | ⟨_, _, hitem, hitem'⟩ <;> rw [hitem, hitem']
  · cases mid with
    | nil => exact .inl ⟨a, b, rfl, rfl, hvalue⟩
    | cons c tail =>
      cases hmid : withReturns (c :: tail) with
      | nil => cases withReturns_eq_nil hmid
      | cons _ _ => exact .inr ⟨_, _, rfl, rfl⟩
  · exact .inr ⟨_, _, rfl, rfl⟩
  · exact .inr ⟨_, _, rfl, rfl⟩

/-- A text with each line feed replaced by a carriage return and a line feed. -/
def returned (source : String) : String :=
  String.ofList (withReturns source.toList)

theorem toOption_buildTree_returned (source : String) :
    (buildTree (returned source)).toOption = (buildTree source).toOption := by
  have hunit : Reader.Alike Draft.Alike source.toList Reader.compilationUnit
      Reader.compilationUnit := Reader.compilationUnit_alike
  rw [buildTree, buildTree, returned, String.toList_ofList]
  rcases hunit.run with ⟨d, d', hread, hread', halike⟩ |
    ⟨_, _, hread, hread'⟩ <;> rw [hread, hread']
  · exact halike.toTree.symm
  · rfl

theorem eq_ok_iff_toOption {ε α : Type} {x : Except ε α} {a : α} :
    x = .ok a ↔ x.toOption = some a := by
  cases x <;> simp [Except.toOption]

/-- Line ends do not matter. With a carriage return before each line feed a text gives a tree if and
only if it does without, and the two trees are the same, so their snapshots agree. -/
theorem buildTree_returned (source : String) :
    ((∃ t, buildTree source = .ok t) ↔ ∃ t, buildTree (returned source) = .ok t) ∧
      ∀ t t', buildTree source = .ok t → buildTree (returned source) = .ok t' → t = t' ∧
        ∃ s, t.snapshot? t.root = some s ∧ t'.snapshot? t'.root = some s ∧ s.agrees s = true := by
  have hsame (t : Tree) : buildTree (returned source) = .ok t ↔ buildTree source = .ok t := by
    rw [eq_ok_iff_toOption, eq_ok_iff_toOption, toOption_buildTree_returned]
  refine ⟨exists_congr fun t => (hsame t).symm, fun t t' hbuild hbuild' => ?_⟩
  obtain rfl : t = t' := Except.ok.inj (hbuild.symm.trans ((hsame t').mp hbuild'))
  obtain ⟨hreach, hcatch⟩ := buildTree_ok hbuild
  obtain ⟨package, items, hsnapshot, hadmissible⟩ := hreach.admissible_root
  have hspell := hadmissible.spellable
    ((hreach.reachable.wellFormed.triesCatch_iff hsnapshot).mpr hcatch)
  exact ⟨rfl, _, hsnapshot, hsnapshot, Snapshot.agrees_self _ hspell⟩

/-- A comment ends at the carriage return of its line as it does at the line feed. -/
theorem comment_returned :
    ∃ t, buildTree "// a\n" = .ok t ∧ buildTree "// a\r\n" = .ok t ∧
      t.snapshot? t.root = some (.node (.compilationUnit none) [.node (.comment "a") []]) := by
  have hcomment : (Snapshot.node (.comment "a") []).Spellable :=
    .node (Payload.made_iff.mp ⟨.comment "a", rfl⟩) rfl nofun nofun
  have hspell : (Snapshot.node (.compilationUnit none) [.node (.comment "a") []]).Spellable :=
    .node (Payload.made_iff.mp ⟨.compilationUnit none, rfl⟩) rfl nofun (by simpa using hcomment)
  obtain ⟨t, hbuild, _, hsnapshot⟩ := buildTree_unitText hspell
  have htext : String.ofList (Snapshot.unitText none [.node (.comment "a") []]) = "// a\n" := rfl
  have hreturned : returned "// a\n" = "// a\r\n" := rfl
  rw [htext] at hbuild
  obtain ⟨hboth, hsame⟩ := buildTree_returned "// a\n"
  obtain ⟨t', hbuild'⟩ := hboth.mp ⟨t, hbuild⟩
  obtain ⟨rfl, _⟩ := hsame t t' hbuild hbuild'
  exact ⟨t, hbuild, hreturned ▸ hbuild', hsnapshot⟩

end ProgramTree
