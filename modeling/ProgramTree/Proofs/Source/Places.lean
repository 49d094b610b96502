import ProgramTree.Proofs.Lines
import ProgramTree.Source.ParseError

/-! # Places name positions

A position of a text lies between two of its characters, before the first one or
behind the last one, and counts the bytes before it. The place of a position
counts whole lines and then characters. Nothing is lost by that: the text before
a position is the lines before its place and as much of the next line as the
column says. So two positions never have the same place, and places are in the
order of their positions. -/

namespace ProgramTree

set_option autoImplicit false

section Lines

variable {lines : List (List Char)} {run : List Char}

/-- Any text is some whole lines and the beginning of another one. -/
theorem exists_unlines (text : List Char) : ∃ (lines : List (List Char)) (last : List Char),
    text = unlines lines ++ last ∧ (∀ line ∈ lines, '\n' ∉ line) ∧ '\n' ∉ last := by
  induction text with
  | nil => exact ⟨[], [], rfl, List.forall_mem_nil _, List.not_mem_nil⟩
  | cons c text ih =>
    obtain ⟨lines, last, rfl, hlines, hlast⟩ := ih
    by_cases hc : c = '\n'
    · subst hc
      exact ⟨[] :: lines, last, rfl, List.forall_mem_cons.mpr ⟨List.not_mem_nil, hlines⟩, hlast⟩
    have hcons {line : List Char} (hline : '\n' ∉ line) : '\n' ∉ c :: line :=
      List.not_mem_cons_of_ne_of_not_mem (Ne.symm hc) hline
    cases lines with
    | nil => exact ⟨[], c :: last, rfl, hlines, hcons hlast⟩
    | cons line lines =>
      obtain ⟨hline, hrest⟩ := List.forall_mem_cons.mp hlines
      exact ⟨(c :: line) :: lines, last, rfl, List.forall_mem_cons.mpr ⟨hcons hline, hrest⟩, hlast⟩

theorem splitOn_run (h : '\n' ∉ run) (rest : List Char) :
    (run ++ rest).splitOn '\n' = (rest.splitOn '\n').modifyHead (run ++ ·) := by
  induction run with
  | nil =>
    rw [List.nil_append]
    cases rest.splitOn '\n' <;> rfl
  | cons c run ih =>
    obtain ⟨hc, hrun⟩ := not_or.mp (List.mem_cons.not.mp h)
    have hne : (c == '\n') = false := beq_eq_false_iff_ne.mpr (Ne.symm hc)
    have hrest := ih hrun
    rw [List.splitOn_eq_splitOnP] at hrest
    rw [List.splitOn_eq_splitOnP, List.cons_append, List.splitOnP_cons_eq_if_modifyHead, hne,
      if_neg Bool.false_ne_true, hrest, List.modifyHead_modifyHead]
    rfl

theorem splitOn_unlines_append (h : ∀ line ∈ lines, '\n' ∉ line) (rest : List Char) :
    (unlines lines ++ rest).splitOn '\n' = lines ++ rest.splitOn '\n' := by
  induction lines with
  | nil => rfl
  | cons line lines ih =>
    obtain ⟨hline, hlines⟩ := List.forall_mem_cons.mp h
    have hsplit : (line ++ '\n' :: (unlines lines ++ rest)).splitOn '\n' =
        line :: (unlines lines ++ rest).splitOn '\n' := by
      rw [splitOn_run hline, List.splitOn_eq_splitOnP, List.splitOnP_cons_eq_if_modifyHead,
        List.splitOn_eq_splitOnP]
      simp
    have htext : unlines (line :: lines) ++ rest = line ++ '\n' :: (unlines lines ++ rest) := by
      simp [unlines]
    rw [htext, hsplit, ih hlines, List.cons_append]

theorem count_unlines (h : ∀ line ∈ lines, '\n' ∉ line) :
    (unlines lines).count '\n' = lines.length := by
  induction lines with
  | nil => rfl
  | cons line lines ih =>
    obtain ⟨hline, hlines⟩ := List.forall_mem_cons.mp h
    have hrest := ih hlines
    rw [unlines, List.flatMap_cons, ← unlines, List.count_append, List.count_append, hrest,
      List.count_eq_zero_of_not_mem hline, List.length_cons]
    simp [Nat.add_comm]

/-- What comes before the last line of a text ends with a line feed, if it is anything. -/
theorem startsNot_reverse_unlines (lines : List (List Char)) :
    StartsNot (· != '\n') (unlines lines).reverse := by
  cases lines using List.reverseRecOn with
  | nil => exact startsNot_nil
  | append_singleton lines line =>
    have hreverse : (unlines (lines ++ [line])).reverse =
        '\n' :: (line.reverse ++ (unlines lines).reverse) := by
      simp [unlines]
    rw [hreverse]
    exact startsNot_cons.mpr rfl

end Lines

/-- The text before a position. -/
def textBefore {source : String} (p : source.Pos) : List Char :=
  (source.sliceTo p).copy.toList

namespace ParseError

/-- The error at a position. -/
def atPosition (source : String) (p : source.Pos) (message : String) : ParseError :=
  atOffset source.toList (textBefore p).length message

/-- The place of one error comes before that of another one. -/
def Precedes (e e' : ParseError) : Prop :=
  e.line < e'.line ∨ e.line = e'.line ∧ e.column < e'.column

/-- The place of an error is one of a text of the given lines, and has the given text before it. -/
structure LeadsBack (e : ParseError) (lines : List (List Char)) (before : List Char) : Prop where
  line_pos : 1 ≤ e.line
  line_le : e.line ≤ lines.length
  column_pos : 1 ≤ e.column
  column_le : ∀ line, lines[e.line - 1]? = some line → e.column ≤ line.length + 1
  before_eq : before = unlines (lines.take (e.line - 1)) ++
    (lines[e.line - 1]?.getD []).take (e.column - 1)

variable {lines : List (List Char)} {last : List Char}

theorem atOffset_unlines (hlines : ∀ line ∈ lines, '\n' ∉ line) (hlast : '\n' ∉ last)
    (rest : List Char) (message : String) :
    atOffset (unlines lines ++ last ++ rest) (unlines lines ++ last).length message =
      ⟨lines.length + 1, last.length + 1, message⟩ := by
  have hcount : (unlines lines ++ last).count '\n' = lines.length := by
    rw [List.count_append, count_unlines hlines, List.count_eq_zero_of_not_mem hlast, Nat.add_zero]
  have hcolumn : (unlines lines ++ last).reverse.takeWhile (· != '\n') = last.reverse := by
    rw [List.reverse_append]
    refine takeWhile_run (fun c hc => bne_iff_ne.mpr ?_) (startsNot_reverse_unlines lines)
    rintro rfl
    exact hlast (List.mem_reverse.mp hc)
  rw [atOffset, List.take_left, hcount, hcolumn, List.length_reverse]

/-- The place behind a part of a text leads back to that part. -/
theorem atOffset_leadsBack (before rest : List Char) (message : String) :
    (atOffset (before ++ rest) before.length message).LeadsBack
      ((before ++ rest).splitOn '\n') before := by
  obtain ⟨lines, last, rfl, hlines, hlast⟩ := exists_unlines before
  obtain ⟨first, more, hrest⟩ := List.exists_cons_of_ne_nil (List.splitOn_ne_nil '\n' rest)
  have hsplit : (unlines lines ++ last ++ rest).splitOn '\n' = lines ++ (last ++ first) :: more := by
    rw [List.append_assoc, splitOn_unlines_append hlines, splitOn_run hlast, hrest,
      List.modifyHead_cons]
  rw [atOffset_unlines hlines hlast, hsplit]
  have hline : (lines ++ (last ++ first) :: more)[lines.length]? = some (last ++ first) := by
    rw [List.getElem?_append_right (Nat.le_refl _), Nat.sub_self, List.getElem?_cons_zero]
  refine ⟨Nat.le_add_left 1 _, ?_, Nat.le_add_left 1 _, ?_, ?_⟩
  · simp
  · intro line hfound
    rw [Nat.add_sub_cancel, hline, Option.some.injEq] at hfound
    simp [← hfound]
  · rw [Nat.add_sub_cancel, Nat.add_sub_cancel, hline, List.take_left, Option.getD_some,
      List.take_left]

/-- More text before a place moves the place on. -/
theorem atOffset_precedes {before more : List Char} (hmore : more ≠ []) (rest rest' : List Char)
    (message message' : String) :
    (atOffset (before ++ rest) before.length message).Precedes
      (atOffset (before ++ more ++ rest') (before ++ more).length message') := by
  obtain ⟨lines, last, rfl, hlines, hlast⟩ := exists_unlines before
  obtain ⟨lines', last', hmoreLines, hlines', hlast'⟩ := exists_unlines more
  rw [atOffset_unlines hlines hlast]
  cases lines' with
  | nil =>
    -- the place stays on its line
    have hmoreLast : more = last' := hmoreLines
    subst hmoreLast
    have hrun : '\n' ∉ last ++ more := by simp [hlast, hlast']
    rw [List.append_assoc _ last more, atOffset_unlines hlines hrun]
    refine Or.inr ⟨rfl, ?_⟩
    have hlength := List.length_pos_iff.mpr hmore
    simp only [List.length_append]
    omega
  | cons line lines' =>
    obtain ⟨hline, hrestLines⟩ := List.forall_mem_cons.mp hlines'
    have htext : unlines lines ++ last ++ more =
        unlines (lines ++ (last ++ line) :: lines') ++ last' := by
      rw [hmoreLines, unlines_append]
      simp [unlines]
    have hall : ∀ part ∈ lines ++ (last ++ line) :: lines', '\n' ∉ part :=
      List.forall_mem_append.mpr
        ⟨hlines, List.forall_mem_cons.mpr ⟨by simp [hlast, hline], hrestLines⟩⟩
    rw [htext, atOffset_unlines hall hlast']
    refine Or.inl ?_
    simp only [List.length_append, List.length_cons]
    omega

end ParseError

section Positions

variable {source : String}

theorem textBefore_append (p : source.Pos) :
    source.toList = textBefore p ++ (source.sliceFrom p).copy.toList := by
  have happend := congrArg String.toList p.splits.eq_append
  rwa [String.toList_append] at happend

theorem offset_eq_textBefore (p : source.Pos) :
    p.offset = (String.ofList (textBefore p)).rawEndPos := by
  rw [textBefore, String.ofList_toList]
  exact p.splits.offset_eq_rawEndPos

/-- Behind a position there is more text before every later one. -/
theorem exists_textBefore {p q : source.Pos} (h : p < q) :
    ∃ more, more ≠ [] ∧ textBefore q = textBefore p ++ more := by
  have hbytes : (String.ofList (textBefore p)).utf8ByteSize <
      (String.ofList (textBefore q)).utf8ByteSize := by
    rwa [String.Pos.lt_iff, String.Pos.Raw.lt_iff, offset_eq_textBefore p, offset_eq_textBefore q,
      String.byteIdx_rawEndPos, String.byteIdx_rawEndPos] at h
  have happend := (textBefore_append p).symm.trans (textBefore_append q)
  rcases List.append_eq_append_iff.mp happend with ⟨more, hq, _⟩ | ⟨more, hp, _⟩
  · refine ⟨more, ?_, hq⟩
    rintro rfl
    rw [hq, List.append_nil] at hbytes
    exact Nat.lt_irrefl _ hbytes
  · rw [hp, String.ofList_append, String.utf8ByteSize_append] at hbytes
    omega

theorem ParseError.Precedes.asymm {e e' : ParseError} (h : e.Precedes e') : ¬ e'.Precedes e := by
  unfold Precedes at *
  omega

theorem ParseError.atPosition_precedes {p q : source.Pos} (h : p < q) (message message' : String) :
    (atPosition source p message).Precedes (atPosition source q message') := by
  obtain ⟨more, hmore, hq⟩ := exists_textBefore h
  have hplaces := @atOffset_precedes (textBefore p) more hmore
    (source.sliceFrom p).copy.toList (source.sliceFrom q).copy.toList message message'
  rwa [← hq, ← textBefore_append p, ← textBefore_append q] at hplaces

/-- The place of a position is on one of the lines of its text and at most one column behind its
end, and skipping the lines and the characters before the place leads back to the position. Places
are in the order of their positions, so different positions have different places. -/
theorem places_name_positions (source : String) (p q : source.Pos) (message message' : String) :
    (ParseError.atPosition source p message).LeadsBack (source.toList.splitOn '\n')
      (textBefore p) ∧
    p.offset = (String.ofList (textBefore p)).rawEndPos ∧
    ((ParseError.atPosition source p message).Precedes (ParseError.atPosition source q message') ↔
      p < q) ∧
    ((ParseError.atPosition source p message).line = (ParseError.atPosition source q message').line ∧
      (ParseError.atPosition source p message).column =
        (ParseError.atPosition source q message').column ↔ p = q) := by
  have hforward {p q : source.Pos} (h : p < q) := ParseError.atPosition_precedes h
  have hcases : p < q ∨ p = q ∨ q < p := by
    simp only [String.Pos.lt_iff, String.Pos.Raw.lt_iff, String.Pos.ext_iff, String.Pos.Raw.ext_iff]
    omega
  refine ⟨?_, offset_eq_textBefore p, ⟨fun h => ?_, fun h => hforward h message message'⟩, ?_⟩
  · have hback := ParseError.atOffset_leadsBack (textBefore p) (source.sliceFrom p).copy.toList
      message
    rwa [← textBefore_append p] at hback
  · rcases hcases with hlt | rfl | hgt
    · exact hlt
    · exact absurd h fun h => by
        rcases h with h | ⟨_, h⟩ <;> exact Nat.lt_irrefl _ h
    · exact absurd (hforward hgt message' message) h.asymm
  · constructor
    · rintro ⟨hline, hcolumn⟩
      rcases hcases with hlt | heq | hgt
      · have h := hforward hlt message message'
        unfold ParseError.Precedes at h
        omega
      · exact heq
      · have h := hforward hgt message' message
        unfold ParseError.Precedes at h
        omega
    · rintro rfl
      exact ⟨rfl, rfl⟩

example : ParseError.atPosition "é\r\nx" "é\r\nx".endPos "" = ⟨2, 2, ""⟩ := by cbv

end Positions

end ProgramTree
