import ProgramTree.Proofs.Grammar.Arrangement
import ProgramTree.Proofs.Grammar.ProgramSound
import ProgramTree.Proofs.Source.Lowering

/-! # The fault that is reported

What stands in a text as a program fits: the rules of the grammar and the layouts
of the tree agree on which kinds may stand under which. So a text that is read
gives a tree unless a form in it is malformed, and then the first malformed form
is reported, in reading order, at the first character of its own text. -/

namespace ProgramTree

set_option autoImplicit false

open Reader Grammar

/-- What the grammar arranges fits. -/
theorem Draft.Arranged.fits {d : Draft} (h : d.Arranged) : d.Fits := by
  induction h with
  | node harranged _ ih => exact .node harranged.check ih

section Reports

variable {source : List Char} {d n : Draft}

/-- The place in a source text at which a draft of a unit begins. -/
structure BeginsAt (source : List Char) (d n : Draft) (above text : List Char) : Prop where
  source_eq : source = above ++ text
  start : n.start = text.length
  stands : ∃ rest, Stands (.node n) text rest
  /-- The unit begins at the first character that is no blank. -/
  unit : n = d → (∀ c ∈ above, isSpace c = true) ∧ StartsNot isSpace text
  begins : n.form.kind ≠ .compilationUnit → StartsVisibly text
  elseKeyword : n.form.kind = .elseIfClause ∨ n.form.kind = .elseClause →
    ∃ after, Keyword "else" text after
  catchKeyword : n.form.kind = .catchClause → ∃ after, Keyword "catch" text after

/-- Every draft of a unit begins at its own place in the source text. -/
theorem exists_beginsAt (h : Reader.run compilationUnit source = .ok d) (hn : n ∈ d.preorder) :
    ∃ above text, BeginsAt source d n above text := by
  obtain ⟨hkind, rest, hd⟩ := unit_of_run h
  obtain ⟨text, after, ⟨front, hfront⟩, hstands⟩ := hd.located n hn
  obtain ⟨blanks, hblanks, hsource⟩ := afterBlanks_skipSpaces source
  refine ⟨blanks ++ front, text, ?_, hstands.start, ⟨after, hstands⟩, ?_, hstands.begins,
    hstands.elseKeyword, hstands.catchKeyword⟩
  · rw [List.append_assoc, hfront, ← hsource]
  · rintro rfl
    -- both places have as many characters left as the draft says
    have hlength := congrArg List.length hfront
    rw [List.length_append, ← hstands.start, ← hd.start] at hlength
    have hnil : front = [] := List.eq_nil_of_length_eq_zero (by omega)
    subst hnil
    rw [List.append_nil]
    refine ⟨hblanks, ?_⟩
    rw [List.nil_append] at hfront
    rw [hfront]
    exact startsNot_skipSpaces source

theorem ParseError.atRest_append (above text : List Char) (message : String) :
    ParseError.atRest (above ++ text) text.length message =
      ⟨above.count '\n' + 1, (above.reverse.takeWhile (· != '\n')).length + 1, message⟩ := by
  simp [ParseError.atRest, ParseError.atOffset]

/-- A text that is read gives a tree unless a form in it is malformed; the tree refuses none of
its nodes; and the error that is reported is that of the first malformed form in reading order, at
the place where its node begins. -/
theorem buildTree_first_fault {source : String} {d : Draft}
    (h : Reader.run compilationUnit source.toList = .ok d) :
    ((∃ t, buildTree source = .ok t) ↔ ∀ n ∈ d.preorder, n.WellMade) ∧
    (buildTree source = d.plant.mapError (PlacingFault.report source.toList) ∧
      ∀ start fault, d.plant ≠ .error (.refused start fault)) ∧
    ∀ e, buildTree source = .error e ↔
      ∃ (n : Draft) (fault : MalformedNode) (above text : List Char),
      Draft.FirstMalformed d.preorder n fault ∧ BeginsAt source.toList d n above text ∧
      e = ⟨above.count '\n' + 1, (above.reverse.takeWhile (· != '\n')).length + 1,
        fault.message⟩ := by
  obtain ⟨hkind, _, hstands⟩ := unit_of_run h
  have hbuild : buildTree source = d.plant.mapError (PlacingFault.report source.toList) := by
    rw [buildTree, h]
    exact d.toTree_eq_plant source.toList
  have hsettles := Draft.plant_settles hstands.arranged.fits hkind
  rcases hsettles with ⟨t, ht, hmade⟩ | ⟨n, fault, hfirst, he⟩
  · have hok : buildTree source = .ok t := by
      rw [hbuild, ht, Except.mapError]
    refine ⟨iff_of_true ⟨t, hok⟩ hmade, ⟨hbuild, by simp [ht]⟩, fun e => ?_⟩
    rw [hok]
    constructor
    · intro herror
      cases herror
    · rintro ⟨n, fault, above, text, hfirst, _⟩
      exact absurd (hmade n hfirst.mem) hfirst.not_wellMade
  · have herror : buildTree source =
        .error (PlacingFault.report source.toList (.malformed n.start fault)) := by
      rw [hbuild, he, Except.mapError]
    have hreport (above text : List Char) (hplace : BeginsAt source.toList d n above text) :
        PlacingFault.report source.toList (.malformed n.start fault) =
          ⟨above.count '\n' + 1, (above.reverse.takeWhile (· != '\n')).length + 1,
            fault.message⟩ := by
      rw [PlacingFault.report, hplace.source_eq, hplace.start]
      exact ParseError.atRest_append above text fault.message
    refine ⟨?_, ⟨hbuild, by simp [he]⟩, fun e => ?_⟩
    · refine iff_of_false ?_ fun hmade => hfirst.not_wellMade (hmade n hfirst.mem)
      rintro ⟨t, hok⟩
      rw [herror] at hok
      cases hok
    · rw [herror, Except.error.injEq]
      constructor
      · rintro rfl
        obtain ⟨above, text, hplace⟩ := exists_beginsAt h hfirst.mem
        exact ⟨n, fault, above, text, hfirst, hplace, hreport above text hplace⟩
      · rintro ⟨n', fault', above, text, hfirst', hplace, rfl⟩
        obtain ⟨rfl, rfl⟩ := hfirst.unique hfirst'
        exact hreport above text hplace

/-- Of two malformed assignments the one that is nested deeper comes first in the text. -/
theorem nested_fault_reported : ∃ d,
    Reader.run compilationUnit "function f()\x7b\nif(1)\x7b\n1=1;\x7d2=2;\x7d".toList = .ok d ∧
    buildTree "function f()\x7b\nif(1)\x7b\n1=1;\x7d2=2;\x7d" =
      .error ⟨3, 1, "assignment: `target` is not assignable: 1"⟩ := by
  have hread : (fun d => d.preorder.map fun n => (n.start, n.form)) <$>
        Reader.run compilationUnit "function f()\x7b\nif(1)\x7b\n1=1;\x7d2=2;\x7d".toList =
      .ok ([(31, .compilationUnit none), (31, .function "f" [] []),
          (17, .ifStatement (some (.literal (.int 1))))] ++
        (10, .assignment (some (.literal (.int 1))) (some (.literal (.int 1)))) ::
        [(5, .assignment (some (.literal (.int 2))) (some (.literal (.int 2))))]) := by
    decide +kernel
  obtain ⟨d, hrun, hforms⟩ := map_eq_ok.mp hread
  obtain ⟨n, hstart, hfirst⟩ := Draft.FirstMalformed.of_forms hforms (by
    simp only [List.forall_mem_cons]
    exact ⟨⟨_, rfl⟩, ⟨_, rfl⟩, ⟨_, rfl⟩, List.forall_mem_nil _⟩) rfl
  obtain ⟨above, text, hplace⟩ := exists_beginsAt hrun hfirst.mem
  refine ⟨d, hrun, ((buildTree_first_fault hrun).2.2 _).mpr
    ⟨n, _, above, text, hfirst, hplace, ?_⟩⟩
  rw [← ParseError.atRest_append, ← hplace.source_eq, ← hplace.start, hstart]
  rfl

end Reports

end ProgramTree
