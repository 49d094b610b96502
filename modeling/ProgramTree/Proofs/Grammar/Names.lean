import ProgramTree.Proofs.Grammar.Scanning

/-! # Reading names of types and packages

A type name ends where no further brackets and no name character follow, a
package name where no further part can follow, and a comment at the end of its
line. All of them are read back whole. -/

namespace ProgramTree.Reader

set_option autoImplicit false

section Types

/-- Pairs of brackets without blanks. -/
def brackets (n : Nat) : List Char :=
  (List.replicate n ['[', ']']).flatten

theorem brackets_succ (n : Nat) : brackets (n + 1) = '[' :: ']' :: brackets n := by
  simp [brackets, List.replicate_succ]

theorem brackets_append (n : Nat) : brackets n ++ ['[', ']'] = brackets (n + 1) := by
  simp [brackets, List.replicate_succ']

/-- What is taken off a reversed type name are pairs of brackets. -/
theorem exists_brackets (reversed : List Char) :
    ∃ n, reversed.reverse = (Name.dropReversedBrackets reversed).reverse ++ brackets n := by
  fun_induction Name.dropReversedBrackets reversed with
  | case1 rest ih =>
    obtain ⟨n, hn⟩ := ih
    refine ⟨n + 1, ?_⟩
    rw [← brackets_append, ← List.append_assoc, ← hn]
    simp
  | case2 rest => exact ⟨0, by simp [brackets]⟩

theorem exists_of_isTypeName {w : List Char} (h : Name.isTypeName w = true) :
    ∃ base n, w = base ++ brackets n ∧ Name.isQualified base = true := by
  obtain ⟨n, hn⟩ := exists_brackets w.reverse
  rw [List.reverse_reverse] at hn
  exact ⟨_, n, hn, h⟩

variable {rest : List Char}

theorem takeBrackets_of_head (h : rest.head? ≠ some '[') : takeBrackets rest = ([], rest) := by
  unfold takeBrackets
  split
  · exact absurd rfl h
  · rfl

theorem takeBrackets_run (n : Nat) (h : rest.head? ≠ some '[') :
    takeBrackets (brackets n ++ rest) = (brackets n, rest) := by
  induction n with
  | zero => exact takeBrackets_of_head h
  | succ n ih =>
    rw [brackets_succ]
    simp only [List.cons_append, takeBrackets, ih]

theorem takeBrackets_eq (text : List Char) :
    ∃ n, (takeBrackets text).1 = brackets n ∧ text = brackets n ++ (takeBrackets text).2 := by
  fun_induction takeBrackets text with
  | case1 text pairs rest hpairs ih =>
    obtain ⟨n, hn, htext⟩ := ih
    rw [hpairs] at hn htext
    exact ⟨n + 1, by rw [brackets_succ, ← hn], by rw [brackets_succ, htext]; rfl⟩
  | case2 text _ => exact ⟨0, rfl, rfl⟩

/-- What ends a type name. -/
structure EndsType (rest : List Char) : Prop where
  word : StartsNot Name.isWordChar rest
  colon : rest.head? ≠ some ':'
  bracket : rest.head? ≠ some '['

theorem typeName_run {w : List Char} (hw : Name.isTypeName w = true) (hends : EndsType rest) :
    typeName (w ++ rest) = .ok w rest := by
  obtain ⟨base, n, rfl, hbase⟩ := exists_of_isTypeName hw
  have hword : StartsNot Name.isWordChar (brackets n ++ rest) := by
    cases n with
    | zero => exact hends.word
    | succ n =>
      rw [brackets_succ]
      exact startsNot_cons.mpr rfl
  have hcolon : (brackets n ++ rest).head? ≠ some ':' := by
    cases n with
    | zero => exact hends.colon
    | succ n =>
      rw [brackets_succ]
      simp
  rw [List.append_assoc]
  apply (bind_of_ok (qualified_run hword hcolon hbase)).trans
  simp only [takeBrackets_run n hends.bracket]

end Types

section Packages

/-- A character stands in one of the parts, unless it is the point between them. -/
theorem eq_or_mem_of_splitOn (point : Char) {c : Char} {text : List Char} (h : c ∈ text) :
    c = point ∨ ∃ part ∈ text.splitOn point, c ∈ part := by
  induction text with
  | nil => cases h
  | cons d text ih =>
    rw [List.splitOn_cons_eq_if_modifyHead]
    split
    · rename_i hd
      rcases List.mem_cons.mp h with rfl | hmem
      · exact Or.inl (by simpa using hd)
      · apply (ih hmem).imp_right
        rintro ⟨part, hpart, hc⟩
        exact ⟨part, List.mem_cons_of_mem _ hpart, hc⟩
    · obtain ⟨first, others, hsplit⟩ := List.exists_cons_of_ne_nil (List.splitOn_ne_nil point text)
      rw [hsplit] at ih ⊢
      rcases List.mem_cons.mp h with rfl | hmem
      · exact Or.inr ⟨c :: first, List.mem_cons_self, List.mem_cons_self⟩
      · apply (ih hmem).imp_right
        rintro ⟨part, hpart, hc⟩
        rcases List.mem_cons.mp hpart with rfl | hpart
        · exact ⟨d :: part, List.mem_cons_self, List.mem_cons_of_mem d hc⟩
        · exact ⟨part, List.mem_cons_of_mem _ hpart, hc⟩

/-- The characters of package names. -/
def isPart (c : Char) : Bool :=
  Name.isWordChar c || c == '.'

theorem isSpace_of_isPart {c : Char} (h : isPart c = true) : isSpace c = false := by
  cases hspace : isSpace c with
  | false => rfl
  | true =>
    simp only [isSpace, Bool.or_eq_true, beq_iff_eq] at hspace
    rcases hspace with ((rfl | rfl) | rfl) | rfl <;> cases h

theorem isPart_of_isPackageName {w : List Char} (h : Name.isPackageName w = true) :
    w ≠ [] ∧ ∀ c ∈ w, isPart c = true := by
  unfold Name.isPackageName at h
  rw [List.all_eq_true] at h
  constructor
  · rintro rfl
    rw [List.splitOn_nil] at h
    exact absurd (h [] List.mem_cons_self) (by decide)
  · intro c hc
    rcases eq_or_mem_of_splitOn '.' hc with rfl | ⟨part, hpart, hmem⟩
    · decide
    · rw [isPart, isWordChar_of_isIdentifier (h part hpart) c hmem, Bool.true_or]

theorem packageName_run {w rest : List Char} (hw : Name.isPackageName w = true)
    (hrest : StartsNot isPart rest) : packageName (w ++ rest) = .ok w rest := by
  obtain ⟨hne, hall⟩ := isPart_of_isPackageName hw
  obtain ⟨c, tail, rfl⟩ := List.exists_cons_of_ne_nil hne
  have htake : (c :: tail ++ rest).takeWhile isPart = c :: tail := takeWhile_run hall hrest
  have hdrop : (c :: tail ++ rest).dropWhile isPart = rest := dropWhile_run hall hrest
  unfold isPart at htake hdrop
  simp only [packageName, htake, hdrop]

end Packages

section Comments

variable {text rest : List Char}

theorem commentText_run (h : ∀ c ∈ text, c ≠ '\n' ∧ c ≠ '\r') :
    commentText ('/' :: '/' :: (text ++ '\n' :: rest)) = .ok text ('\n' :: rest) := by
  have hline : ∀ c ∈ text, (c != '\n' && c != '\r') = true := by
    intro c hc
    simpa using h c hc
  have hend : StartsNot (fun c => c != '\n' && c != '\r') ('\n' :: rest) :=
    startsNot_cons.mpr rfl
  simp only [commentText, takeWhile_run hline hend, dropWhile_run hline hend]

end Comments

end ProgramTree.Reader
