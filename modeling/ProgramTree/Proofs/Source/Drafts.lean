import ProgramTree.Proofs.Grammar.Arrangement
import ProgramTree.Proofs.Grammar.ProgramSound
import ProgramTree.Proofs.Source.Placing

/-! # Drafts that are read have their `catch`

The grammar gives every `try` a `catch`, so whatever text a draft is read off, no
`try` in it lacks its `catch`. The same then holds of the tree that is made of
the draft. -/

namespace ProgramTree

set_option autoImplicit false

/-- Each `try` of the draft has a `catch`. -/
inductive Draft.TriesCatch : Draft → Prop
  | node {start : Nat} {form : Form} {children : List Draft} :
      (form.kind = .tryStatement → ∃ c ∈ children, c.form.kind = .catchClause) →
      (∀ c ∈ children, c.TriesCatch) → (Draft.node start form children).TriesCatch

theorem Draft.Arranged.triesCatch {d : Draft} (h : d.Arranged) : d.TriesCatch := by
  induction h with
  | node harranged _ ih =>
    refine .node (fun htry => ?_) ih
    rw [htry] at harranged
    exact List.mem_map.mp harranged.mem_catchClause

section Trees

variable {t : Tree}

theorem Draft.TriesCatch.snapshot {d : Draft} (h : d.TriesCatch) {s : Snapshot}
    (hspell : d.Spells s) : s.TriesCatch := by
  induction h generalizing s with
  | node hcatch _ ih =>
    obtain ⟨payload, ss⟩ := s
    obtain ⟨hform, hspells⟩ := hspell
    have hkind := Form.kind_of_payload hform
    refine .node (fun htry => ?_) fun child hchild => ?_
    · obtain ⟨c, hc, hkindCatch⟩ := hcatch (hkind.symm.trans htry)
      obtain ⟨child, hchild, hspell⟩ := hspells.exists_snapshot hc
      exact ⟨child, hchild, hspell.kind.trans hkindCatch⟩
    · obtain ⟨c, hc, hspell⟩ := hspells.exists_draft hchild
      exact ih c hc hspell

/-- Every tree that a text gives can be spelled again. -/
theorem buildTree_ok {source : String} (h : buildTree source = .ok t) :
    t.ReachableWith Payload.Made ∧ t.TriesCatch := by
  obtain ⟨d, hread, htree⟩ := buildTree_eq_ok.mp h
  obtain ⟨hreach, package, items, hsnapshot, hspells⟩ := Draft.toTree_ok htree
  obtain ⟨_, _, hstands⟩ := Grammar.unit_of_run hread
  have hcatch : d.TriesCatch := hstands.arranged.triesCatch
  have hwf := hreach.reachable.wellFormed
  exact ⟨hreach, (hwf.triesCatch_iff hsnapshot).mp (hcatch.snapshot hspells)⟩

end Trees

end ProgramTree
