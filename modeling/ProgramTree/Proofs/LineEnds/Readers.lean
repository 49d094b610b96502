import Mathlib.Data.List.Forall2
import ProgramTree.Proofs.Grammar.Names

/-! # Reading texts with other line ends

Two runs are compared: one on a text, and one on the same text with a carriage
return before each line feed. Two readers are alike on a text if, from any place
in it, they fail alike or read related values and stop at the same place. What
readers are put together with keeps them alike, and the readers of tokens are
alike to themselves. -/

namespace ProgramTree

set_option autoImplicit false

/-- The text with a carriage return before each line feed. -/
def withReturns (text : List Char) : List Char :=
  text.flatMap fun c => if c = '\n' then ['\r', '\n'] else [c]

section Texts

variable {test : Char → Bool} {c : Char} {run text rest : List Char}

@[simp] theorem withReturns_nil : withReturns [] = [] := rfl

@[simp] theorem withReturns_newline :
    withReturns ('\n' :: text) = '\r' :: '\n' :: withReturns text := rfl

theorem withReturns_cons (hc : c ≠ '\n') : withReturns (c :: text) = c :: withReturns text := by
  simp [withReturns, hc]

theorem withReturns_append (text rest : List Char) :
    withReturns (text ++ rest) = withReturns text ++ withReturns rest :=
  List.flatMap_append

theorem withReturns_run (hrun : ∀ c ∈ run, c ≠ '\n') : withReturns run = run := by
  induction run with
  | nil => rfl
  | cons c run ih =>
    obtain ⟨hc, hrun⟩ := List.forall_mem_cons.mp hrun
    rw [withReturns_cons hc, ih hrun]

theorem length_withReturns_pos (text : List Char) :
    0 < (withReturns text).length ↔ 0 < text.length := by
  cases text with
  | nil => rfl
  | cons c text =>
    by_cases hc : c = '\n'
    · simp [hc]
    · simp [withReturns_cons hc]

/-- Places of a text come in the same order with and without carriage returns. -/
theorem length_withReturns_lt (h : rest <:+ text) :
    (withReturns rest).length < (withReturns text).length ↔ rest.length < text.length := by
  obtain ⟨front, rfl⟩ := h
  have hfront := length_withReturns_pos front
  simp only [withReturns_append, List.length_append]
  omega

theorem takeWhile_withReturns (hreturn : test '\r' = false) (hfeed : test '\n' = false)
    (text : List Char) : (withReturns text).takeWhile test = text.takeWhile test := by
  induction text with
  | nil => rfl
  | cons c text ih =>
    by_cases hc : c = '\n'
    · subst hc
      simp [hreturn, hfeed]
    · rw [withReturns_cons hc, List.takeWhile_cons, List.takeWhile_cons, ih]

theorem dropWhile_withReturns (h : test '\r' = test '\n') (text : List Char) :
    (withReturns text).dropWhile test = withReturns (text.dropWhile test) := by
  induction text with
  | nil => rfl
  | cons c text ih =>
    by_cases hc : c = '\n'
    · subst hc
      cases hfeed : test '\n' <;> simp [h, hfeed, ih]
    · rw [withReturns_cons hc, List.dropWhile_cons, List.dropWhile_cons, ih]
      split
      · rfl
      · rw [withReturns_cons hc]

theorem isPrefixOf_withReturns (hrun : ∀ c ∈ run, c ≠ '\n' ∧ c ≠ '\r') (text : List Char) :
    run.isPrefixOf (withReturns text) = run.isPrefixOf text := by
  induction run generalizing text with
  | nil => simp
  | cons d run ih =>
    obtain ⟨⟨hfeed, hreturn⟩, hrun⟩ := List.forall_mem_cons.mp hrun
    cases text with
    | nil => rfl
    | cons c text =>
      by_cases hc : c = '\n'
      · have hreturn : (d == '\r') = false := beq_eq_false_iff_ne.mpr hreturn
        have hfeed : (d == '\n') = false := beq_eq_false_iff_ne.mpr hfeed
        rw [hc, withReturns_newline, List.isPrefixOf, List.isPrefixOf, hreturn, hfeed]
        rfl
      · simp [List.isPrefixOf, withReturns_cons hc, ih hrun]

/-- Whether a text begins with a character, in the form in which the readers are told apart. -/
theorem begins_or_not (c : Char) (text : List Char) :
    (∃ tail, text = c :: tail) ∨ ∀ tail, text = c :: tail → False :=
  (em (∃ tail, text = c :: tail)).imp_right fun hne tail heq => hne ⟨tail, heq⟩

theorem begins_pair_or_not (c d : Char) (text : List Char) :
    (∃ tail, text = c :: d :: tail) ∨ ∀ tail, text = c :: d :: tail → False :=
  (em (∃ tail, text = c :: d :: tail)).imp_right fun hne tail heq => hne ⟨tail, heq⟩

/-- What is not a carriage return stands first in a text if it does with carriage returns. -/
theorem exists_of_withReturns_eq_cons (hreturn : c ≠ '\r') (h : withReturns text = c :: rest) :
    ∃ tail, text = c :: tail ∧ withReturns tail = rest := by
  cases text with
  | nil => cases h
  | cons d tail =>
    by_cases hd : d = '\n'
    · rw [hd, withReturns_newline, List.cons.injEq] at h
      exact absurd h.1.symm hreturn
    · rw [withReturns_cons hd, List.cons.injEq] at h
      exact ⟨tail, by rw [h.1], h.2⟩

theorem withReturns_ne_cons (hreturn : c ≠ '\r') (h : ∀ tail, text = c :: tail → False) :
    ∀ tail, withReturns text = c :: tail → False := by
  intro tail heq
  obtain ⟨tail, htext, _⟩ := exists_of_withReturns_eq_cons hreturn heq
  exact h tail htext

theorem withReturns_ne_pair {d : Char} (hc : c ≠ '\r') (hd : d ≠ '\r')
    (h : ∀ tail, text = c :: d :: tail → False) :
    ∀ tail, withReturns text = c :: d :: tail → False := by
  intro tail heq
  obtain ⟨after, rfl, hafter⟩ := exists_of_withReturns_eq_cons hc heq
  obtain ⟨tail, rfl, _⟩ := exists_of_withReturns_eq_cons hd hafter
  exact h tail rfl

theorem head_of_skipSpaces (h : Reader.skipSpaces text = c :: rest) : c ≠ '\n' := by
  rintro rfl
  have hstart := Reader.startsNot_skipSpaces text
  rw [h] at hstart
  exact absurd (startsNot_cons.mp hstart) (by decide)

theorem skipSpaces_withReturns (text : List Char) :
    Reader.skipSpaces (withReturns text) = withReturns (Reader.skipSpaces text) :=
  dropWhile_withReturns (by decide) text

theorem word_withReturns (text : List Char) :
    Reader.word (withReturns text) = Reader.word text :=
  takeWhile_withReturns (by decide) (by decide) text

theorem afterWord_withReturns (text : List Char) :
    Reader.afterWord (withReturns text) = withReturns (Reader.afterWord text) :=
  dropWhile_withReturns (by decide) text

end Texts

/-- The outcome over a text and the outcome over it with carriage returns: both fail in the same
way, or both read, the values are related, and the same part of the text is left. -/
inductive Outcome.Alike {α β : Type} (R : α → β → Prop) (text : List Char) :
    Outcome α → Outcome β → Prop
  | ok {a : α} {b : β} {rest : List Char} :
      R a b → rest <:+ text → Alike R text (.ok a rest) (.ok b (withReturns rest))
  | soft {failure failure' : Failure} : Alike R text (.soft failure) (.soft failure')
  | hard {failure failure' : Failure} : Alike R text (.hard failure) (.hard failure')

namespace Outcome.Alike

variable {α β γ δ : Type} {R : α → β → Prop} {S : γ → δ → Prop} {text text' : List Char}
  {outcome : Outcome α} {outcome' : Outcome β}

theorem within (h : Outcome.Alike R text outcome outcome') (hsuffix : text <:+ text') :
    Outcome.Alike R text' outcome outcome' := by
  cases h with
  | ok hvalue hrest => exact .ok hvalue (hrest.trans hsuffix)
  | soft => exact .soft
  | hard => exact .hard

theorem committed (h : Outcome.Alike R text outcome outcome') :
    Outcome.Alike R text outcome.committed outcome'.committed := by
  cases h with
  | ok hvalue hrest => exact .ok hvalue hrest
  | soft | hard => exact .hard

theorem map (h : Outcome.Alike R text outcome outcome') {f : α → γ} {g : β → δ}
    (himp : ∀ a b, R a b → S (f a) (g b)) :
    Outcome.Alike S text (outcome.map f) (outcome'.map g) := by
  cases h with
  | ok hvalue hrest => exact .ok (himp _ _ hvalue) hrest
  | soft => exact .soft
  | hard => exact .hard

end Outcome.Alike

namespace Reader

/-- Two readers that are alike from any place in a text on. -/
def Alike {α β : Type} (R : α → β → Prop) (text : List Char) (item : Reader α)
    (item' : Reader β) : Prop :=
  ∀ rest, rest <:+ text → Outcome.Alike R rest (item rest) (item' (withReturns rest))

namespace Alike

variable {α β γ δ : Type} {R : α → β → Prop} {S : γ → δ → Prop} {text rest : List Char}
  {item : Reader α} {item' : Reader β}

/-- What the two readers can do. -/
theorem outcomes (h : Alike R text item item') (hrest : rest <:+ text) :
    (∃ a b mid, item rest = .ok a mid ∧ item' (withReturns rest) = .ok b (withReturns mid) ∧
      R a b ∧ mid <:+ rest) ∨
    (∃ failure failure', item rest = .soft failure ∧ item' (withReturns rest) = .soft failure') ∨
    ∃ failure failure', item rest = .hard failure ∧ item' (withReturns rest) = .hard failure' := by
  have halike := h rest hrest
  generalize item rest = outcome at halike ⊢
  generalize item' (withReturns rest) = outcome' at halike ⊢
  cases halike with
  | ok hvalue hsuffix => exact .inl ⟨_, _, _, rfl, rfl, hvalue, hsuffix⟩
  | soft => exact .inr (.inl ⟨_, _, rfl, rfl⟩)
  | hard => exact .inr (.inr ⟨_, _, rfl, rfl⟩)

theorem mono {R' : α → β → Prop} (h : Alike R text item item') (himp : ∀ a b, R a b → R' a b) :
    Alike R' text item item' := by
  intro rest hrest
  rcases h.outcomes hrest with ⟨a, b, mid, hitem, hitem', hvalue, hsuffix⟩ |
    ⟨_, _, hitem, hitem'⟩ | ⟨_, _, hitem, hitem'⟩ <;> rw [hitem, hitem']
  · exact .ok (himp a b hvalue) hsuffix
  · exact .soft
  · exact .hard

theorem pure {a : α} {b : β} (h : R a b) :
    Alike R text (Pure.pure a : Reader α) (Pure.pure b : Reader β) :=
  fun rest _ => .ok h (List.suffix_refl rest)

theorem bind {next : α → Reader γ} {next' : β → Reader δ} (h : Alike R text item item')
    (hnext : ∀ a b, R a b → Alike S text (next a) (next' b)) :
    Alike S text (item >>= next) (item' >>= next') := by
  intro rest hrest
  rw [bind_apply, bind_apply, andThen, andThen]
  rcases h.outcomes hrest with ⟨a, b, mid, hitem, hitem', hvalue, hsuffix⟩ |
    ⟨_, _, hitem, hitem'⟩ | ⟨_, _, hitem, hitem'⟩ <;> rw [hitem, hitem']
  · exact (hnext a b hvalue mid (hsuffix.trans hrest)).within hsuffix
  · exact .soft
  · exact .hard

/-- The case of `bind` in which both readers read the same value. -/
theorem same {item item' : Reader α} {next : α → Reader γ} {next' : α → Reader δ}
    (h : Alike Eq text item item') (hnext : ∀ a, Alike S text (next a) (next' a)) :
    Alike S text (item >>= next) (item' >>= next') :=
  h.bind fun a _ heq => heq ▸ hnext a

theorem committed (h : Alike R text item item') :
    Alike R text (Reader.committed item) (Reader.committed item') :=
  fun rest hrest => (h rest hrest).committed

theorem orElse_at {other : Reader α} {other' : Reader β} (h : Alike R text item item')
    (hrest : rest <:+ text)
    (hother : Outcome.Alike R rest (other rest) (other' (withReturns rest))) :
    Outcome.Alike R rest (Reader.orElse item other rest)
      (Reader.orElse item' other' (withReturns rest)) := by
  rw [Reader.orElse, Reader.orElse]
  rcases h.outcomes hrest with ⟨_, _, _, hitem, hitem', hvalue, hsuffix⟩ |
    ⟨_, _, hitem, hitem'⟩ | ⟨_, _, hitem, hitem'⟩ <;> rw [hitem, hitem']
  · exact .ok hvalue hsuffix
  · exact hother
  · exact .hard

theorem orElse {other : Reader α} {other' : Reader β} (h : Alike R text item item')
    (hother : Alike R text other other') :
    Alike R text (Reader.orElse item other) (Reader.orElse item' other') :=
  fun rest hrest => h.orElse_at hrest (hother rest hrest)

theorem optional (h : Alike R text item item') :
    Alike (Option.Rel R) text (Reader.optional item) (Reader.optional item') := by
  intro rest hrest
  rw [Reader.optional, Reader.optional]
  rcases h.outcomes hrest with ⟨_, _, _, hitem, hitem', hvalue, hsuffix⟩ |
    ⟨_, _, hitem, hitem'⟩ | ⟨_, _, hitem, hitem'⟩ <;> rw [hitem, hitem']
  · exact .ok (.some hvalue) hsuffix
  · exact .ok .none (List.suffix_refl rest)
  · exact .hard

theorem many (h : Alike R text item item') :
    Alike (List.Forall₂ R) text (Reader.many item) (Reader.many item') := by
  intro rest hrest
  induction hn : rest.length using Nat.strongRecOn generalizing rest with
  | ind n ih =>
    subst hn
    rw [Reader.many, Reader.many]
    rcases h.outcomes hrest with ⟨a, b, mid, hitem, hitem', hvalue, hsuffix⟩ |
      ⟨_, _, hitem, hitem'⟩ | ⟨_, _, hitem, hitem'⟩ <;> simp only [hitem, hitem']
    · simp only [length_withReturns_lt hsuffix]
      split
      · rename_i hlt
        have hothers := ih mid.length hlt mid (hsuffix.trans hrest) rfl
        generalize Reader.many item mid = outcome at hothers ⊢
        generalize Reader.many item' (withReturns mid) = outcome' at hothers ⊢
        cases hothers with
        | ok hvalues hmore => exact .ok (.cons hvalue hvalues) (hmore.trans hsuffix)
        | soft => exact .soft
        | hard => exact .hard
      · exact .ok .nil (List.suffix_refl rest)
    · exact .ok .nil (List.suffix_refl rest)
    · exact .hard

theorem separated {separator : Reader Unit} (hseparator : Alike Eq text separator separator)
    (h : Alike R text item item') :
    Alike (List.Forall₂ R) text (Reader.separated separator item)
      (Reader.separated separator item') := by
  intro rest hrest
  rw [Reader.separated, Reader.separated]
  rcases h.outcomes hrest with ⟨a, b, mid, hitem, hitem', hvalue, hsuffix⟩ |
    ⟨_, _, hitem, hitem'⟩ | ⟨_, _, hitem, hitem'⟩ <;> simp only [hitem, hitem']
  · have hothers : Alike (List.Forall₂ R) text
        (do return a :: (← Reader.many (do separator; item)))
        (do return b :: (← Reader.many (do separator; item'))) :=
      (hseparator.same fun _ => h).many.bind fun _ _ hvalues => .pure (.cons hvalue hvalues)
    exact (hothers mid (hsuffix.trans hrest)).within hsuffix
  · exact .ok .nil (List.suffix_refl rest)
  · exact .hard

theorem separatedSome {separator : Reader Unit} (hseparator : Alike Eq text separator separator)
    (h : Alike R text item item') :
    Alike (List.Forall₂ R) text (Reader.separatedSome separator item)
      (Reader.separatedSome separator item') :=
  h.bind fun _ _ hvalue =>
    (hseparator.same fun _ => h).many.bind fun _ _ hvalues => .pure (.cons hvalue hvalues)

theorem below {inner : (rest : List Char) → rest.length < text.length → Outcome α}
    {inner' : (rest : List Char) → rest.length < (withReturns text).length → Outcome β}
    (h : ∀ rest hlt hlt', Outcome.Alike R rest (inner rest hlt) (inner' (withReturns rest) hlt')) :
    Alike R text (Reader.below text inner) (Reader.below (withReturns text) inner') := by
  intro rest hrest
  rw [Reader.below, Reader.below]
  simp only [length_withReturns_lt hrest]
  split
  · exact h rest _ _
  · exact .soft

section Equal

variable {item item' : Reader α} {separator : Reader Unit}
  (hseparator : Alike Eq text separator separator) (h : Alike Eq text item item')
include h

theorem optional_eq : Alike Eq text (Reader.optional item) (Reader.optional item') := by
  refine h.optional.mono ?_
  rintro _ _ (heq | _)
  · exact congrArg some heq
  · rfl

theorem many_eq : Alike Eq text (Reader.many item) (Reader.many item') := by
  simpa only [List.forall₂_eq_eq_eq] using h.many

include hseparator

theorem separated_eq :
    Alike Eq text (Reader.separated separator item) (Reader.separated separator item') := by
  simpa only [List.forall₂_eq_eq_eq] using Alike.separated hseparator h

theorem separatedSome_eq :
    Alike Eq text (Reader.separatedSome separator item) (Reader.separatedSome separator item') := by
  simpa only [List.forall₂_eq_eq_eq] using Alike.separatedSome hseparator h

end Equal

end Alike

section Tokens

variable {text : List Char}

theorem skipSpaces_suffix (text : List Char) : skipSpaces text <:+ text :=
  List.dropWhile_suffix isSpace

theorem afterWord_suffix (text : List Char) : afterWord text <:+ text :=
  List.dropWhile_suffix Name.isWordChar

theorem suffix_of_skipSpaces {c : Char} {text rest : List Char} (h : skipSpaces text = c :: rest) :
    rest <:+ text :=
  (List.suffix_cons c rest).trans (h ▸ skipSpaces_suffix text)

theorem position_alike : Alike (fun _ _ => True) text position position :=
  fun rest _ => .ok trivial (List.suffix_refl rest)

theorem spaces_alike : Alike Eq text spaces spaces := by
  intro rest _
  rw [spaces, spaces, skipSpaces_withReturns]
  exact .ok rfl (skipSpaces_suffix rest)

theorem symbolOr_alike (complaint : Complaint) (c : Char) :
    Alike Eq text (symbolOr complaint c) (symbolOr complaint c) := by
  intro rest _
  rw [symbolOr, symbolOr, skipSpaces_withReturns]
  cases hskip : skipSpaces rest with
  | nil => exact .soft
  | cons d tail =>
    rw [withReturns_cons (head_of_skipSpaces hskip)]
    dsimp only
    split
    · exact .ok rfl (suffix_of_skipSpaces hskip)
    · exact .soft

theorem symbol_alike (c : Char) : Alike Eq text (symbol c) (symbol c) :=
  symbolOr_alike _ c

theorem expect_alike (c : Char) : Alike Eq text (expect c) (expect c) :=
  symbolOr_alike _ c

theorem keyword_alike (expected : String) :
    Alike Eq text (keyword expected) (keyword expected) := by
  intro rest _
  rw [keyword, keyword, word_withReturns, afterWord_withReturns]
  split
  · exact .ok rfl (afterWord_suffix rest)
  · exact .soft

theorem identifier_alike : Alike Eq text identifier identifier := by
  intro rest _
  rw [identifier_eq, identifier_eq, word_withReturns, afterWord_withReturns]
  split
  · exact .ok rfl (afterWord_suffix rest)
  · exact .soft

theorem qualifier_alike : Alike Eq text qualifier qualifier := by
  intro rest _
  rcases begins_or_not ':' rest with ⟨tail, rfl⟩ | hne
  · have hafter : Alike Eq tail (do return ':' :: (← identifier))
        (do return ':' :: (← identifier)) :=
      identifier_alike.same fun _ => .pure rfl
    rw [withReturns_cons (by decide), qualifier, qualifier]
    exact (hafter tail (List.suffix_refl tail)).within (List.suffix_cons ':' tail)
  · rw [qualifier.eq_2 _ hne, qualifier.eq_2 _ (withReturns_ne_cons (by decide) hne)]
    exact .soft

theorem qualified_alike : Alike Eq text qualified qualified :=
  identifier_alike.same fun _ => (Alike.optional_eq qualifier_alike).same fun _ => .pure rfl

theorem suffix_of_takeBrackets (text : List Char) : (takeBrackets text).2 <:+ text := by
  obtain ⟨n, _, htext⟩ := takeBrackets_eq text
  exact ⟨brackets n, htext.symm⟩

theorem takeBrackets_withReturns (text : List Char) : takeBrackets (withReturns text) =
    ((takeBrackets text).1, withReturns (takeBrackets text).2) := by
  fun_induction takeBrackets text with
  | case1 rest pairs final heq ih =>
    rw [heq] at ih
    rw [withReturns_cons (by decide), withReturns_cons (by decide), takeBrackets, ih]
  | case2 text hne =>
    exact takeBrackets.eq_2 _ (withReturns_ne_pair (by decide) (by decide) hne)

theorem typeName_alike : Alike Eq text typeName typeName := by
  refine qualified_alike.same fun base => ?_
  intro rest _
  simp only [takeBrackets_withReturns]
  exact .ok rfl (suffix_of_takeBrackets rest)

theorem packageName_alike : Alike Eq text packageName packageName := by
  intro rest _
  simp only [packageName]
  rw [takeWhile_withReturns (by decide) (by decide), dropWhile_withReturns (by decide)]
  split
  · exact .soft
  · exact .ok rfl (List.dropWhile_suffix _)

/-- A comment ends before the carriage return of its line, or else before the line feed. -/
theorem commentText_alike : Alike Eq text commentText commentText := by
  intro rest _
  rcases begins_pair_or_not '/' '/' rest with ⟨tail, rfl⟩ | hne
  · rw [withReturns_cons (by decide), withReturns_cons (by decide), commentText, commentText,
      takeWhile_withReturns (by decide) (by decide), dropWhile_withReturns (by decide)]
    exact .ok rfl ((List.dropWhile_suffix _).trans
      ((List.suffix_cons '/' tail).trans (List.suffix_cons '/' _)))
  · rw [commentText.eq_2 _ hne,
      commentText.eq_2 _ (withReturns_ne_pair (by decide) (by decide) hne)]
    exact .soft

end Tokens

end Reader
end ProgramTree
