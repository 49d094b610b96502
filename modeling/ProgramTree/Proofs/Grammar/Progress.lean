import ProgramTree.Proofs.LineEnds.Statements

/-! # Readers that make progress

A reader leaves an end of the text it is given, and many readers take at least
one character off the front. Two readers are compared that do the same where
they are asked, and that is said of both at once: what they are put together
from may differ on texts that are never reached. Behind a reader that takes a
character the text is shorter, so what comes next is asked for shorter texts
only. -/

namespace ProgramTree

set_option autoImplicit false

/-- The two outcomes over a text are the same, and if they are a value, at least so many characters
have been taken off the front of the text. -/
inductive Outcome.Takes {α : Type} (n : Nat) (text : List Char) : Outcome α → Outcome α → Prop
  | ok {a : α} {rest : List Char} : rest <:+ text → rest.length + n ≤ text.length →
      Takes n text (.ok a rest) (.ok a rest)
  | soft {failure : Failure} : Takes n text (.soft failure) (.soft failure)
  | hard {failure : Failure} : Takes n text (.hard failure) (.hard failure)

namespace Outcome.Takes

variable {α β : Type} {m n : Nat} {text text' rest : List Char} {outcome outcome' : Outcome α}

theorem eq (h : Outcome.Takes n text outcome outcome') : outcome = outcome' := by
  cases h <;> rfl

/-- What is said of both outcomes holds of the first one alone. -/
theorem self (h : Outcome.Takes n text outcome outcome') :
    Outcome.Takes n text outcome outcome := by
  cases h with
  | ok hsuffix hlength => exact .ok hsuffix hlength
  | soft => exact .soft
  | hard => exact .hard

theorem of_ok {a : α} (h : Outcome.Takes n text (.ok a rest) outcome') :
    rest <:+ text ∧ rest.length + n ≤ text.length := by
  cases h with
  | ok hsuffix hlength => exact ⟨hsuffix, hlength⟩

theorem mono (h : Outcome.Takes n text outcome outcome') (hle : m ≤ n) :
    Outcome.Takes m text outcome outcome' := by
  cases h with
  | ok hsuffix hlength => exact .ok hsuffix (by omega)
  | soft => exact .soft
  | hard => exact .hard

/-- Over a longer text that the text is an end of, as many more characters are taken. -/
theorem within (h : Outcome.Takes n text outcome outcome') (hsuffix : text <:+ text')
    (hlength : text.length + m ≤ text'.length + n) : Outcome.Takes m text' outcome outcome' := by
  cases h with
  | ok hrest hle => exact .ok (hrest.trans hsuffix) (by omega)
  | soft => exact .soft
  | hard => exact .hard

theorem committed (h : Outcome.Takes n text outcome outcome') :
    Outcome.Takes n text outcome.committed outcome'.committed := by
  cases h with
  | ok hsuffix hlength => exact .ok hsuffix hlength
  | soft | hard => exact .hard

theorem map (h : Outcome.Takes n text outcome outcome') (f : α → β) :
    Outcome.Takes n text (outcome.map f) (outcome'.map f) := by
  cases h with
  | ok hsuffix hlength => exact .ok hsuffix hlength
  | soft => exact .soft
  | hard => exact .hard

end Outcome.Takes

namespace Reader

/-- Two readers that do the same from any place in a text on, and take at least so many characters
wherever they read something. -/
def Takes {α : Type} (n : Nat) (text : List Char) (item item' : Reader α) : Prop :=
  ∀ rest, rest <:+ text → Outcome.Takes n rest (item rest) (item' rest)

/-- Two readers that do the same on shorter ends of a text, and leave ends of them. -/
def Inside {α : Type} (text : List Char) (item item' : Reader α) : Prop :=
  ∀ rest, rest <:+ text → rest.length < text.length → Outcome.Takes 0 rest (item rest) (item' rest)

section Combinators

variable {α β : Type} {n : Nat} {text part rest : List Char} {item item' : Reader α}

theorem Inside.takes (h : Inside text item item') (hpart : part <:+ text)
    (hlt : part.length < text.length) : Takes 0 part item item' :=
  fun rest hrest => h rest (hrest.trans hpart) (Nat.lt_of_le_of_lt hrest.length_le hlt)

theorem Inside.restrict (h : Inside text item item') (hpart : part <:+ text) :
    Inside part item item' :=
  fun rest hrest hlt => h rest (hrest.trans hpart) (Nat.lt_of_lt_of_le hlt hpart.length_le)

theorem Takes.restrict (h : Takes n text item item') (hpart : part <:+ text) :
    Takes n part item item' :=
  fun rest hrest => h rest (hrest.trans hpart)

theorem Takes.mono {m : Nat} (h : Takes n text item item') (hle : m ≤ n) :
    Takes m text item item' :=
  fun rest hrest => (h rest hrest).mono hle

/-- At least no character is taken. -/
theorem Takes.any (h : Takes n text item item') : Takes 0 text item item' :=
  h.mono (Nat.zero_le n)

theorem Takes.nested (h : Takes n text item item') : Inside text item item' :=
  fun rest hrest _ => h.any rest hrest

theorem Takes.congr (h : Takes n text item' item')
    (hitem : ∀ rest, rest.length ≤ text.length → item rest = item' rest) :
    Takes n text item item' := by
  intro rest hrest
  rw [hitem rest hrest.length_le]
  exact h rest hrest

theorem Inside.congr (h : Inside text item' item')
    (hitem : ∀ rest, rest.length < text.length → item rest = item' rest) :
    Inside text item item' := by
  intro rest hrest hlt
  rw [hitem rest hlt]
  exact h rest hrest hlt

theorem Takes.outcomes (h : Takes n text item item') (hrest : rest <:+ text) :
    (∃ a mid, item rest = .ok a mid ∧ item' rest = .ok a mid ∧ mid <:+ rest ∧
      mid.length + n ≤ rest.length) ∨
    (∃ failure, item rest = .soft failure ∧ item' rest = .soft failure) ∨
    ∃ failure, item rest = .hard failure ∧ item' rest = .hard failure := by
  have htakes := h rest hrest
  generalize item rest = outcome at htakes ⊢
  generalize item' rest = outcome' at htakes ⊢
  cases htakes with
  | ok hsuffix hlength => exact .inl ⟨_, _, rfl, rfl, hsuffix, hlength⟩
  | soft => exact .inr (.inl ⟨_, rfl, rfl⟩)
  | hard => exact .inr (.inr ⟨_, rfl, rfl⟩)

namespace Takes

theorem pure (a : α) : Takes 0 text (Pure.pure a : Reader α) (Pure.pure a) :=
  fun rest _ => .ok (List.suffix_refl rest) (Nat.le_refl _)

section Sequence

variable {next next' : α → Reader β}

/-- What comes after the first reader is asked for texts that are shorter by what that one takes. -/
theorem andThen {m k : Nat} (h : Takes n text item item')
    (hnext : ∀ a part, part <:+ text → part.length + n ≤ text.length →
      Takes m part (next a) (next' a)) (hk : k ≤ n + m) :
    Takes k text (item >>= next) (item' >>= next') := by
  intro rest hrest
  rw [bind_apply, bind_apply, Reader.andThen, Reader.andThen]
  rcases h.outcomes hrest with ⟨a, mid, hitem, hitem', hmid, hlength⟩ |
    ⟨failure, hitem, hitem'⟩ | ⟨failure, hitem, hitem'⟩ <;> rw [hitem, hitem']
  · have hle := hrest.length_le
    exact (hnext a mid (hmid.trans hrest) (by omega) mid (List.suffix_refl mid)).within hmid
      (by omega)
  · exact .soft
  · exact .hard

theorem bind {m : Nat} (h : Takes n text item item')
    (hnext : ∀ a, Takes m text (next a) (next' a)) :
    Takes n text (item >>= next) (item' >>= next') :=
  h.andThen (fun a _ hpart _ => (hnext a).restrict hpart) (Nat.le_add_right n m)

/-- The characters are taken behind a reader that may take none. -/
theorem skip {m : Nat} (h : Takes n text item item')
    (hnext : ∀ a, Takes m text (next a) (next' a)) :
    Takes m text (item >>= next) (item' >>= next') :=
  h.andThen (fun a _ hpart _ => (hnext a).restrict hpart) (Nat.le_add_left m n)

/-- Behind a character the text is shorter. -/
theorem inside {m : Nat} (h : Takes 1 text item item')
    (hnext : ∀ a part, part <:+ text → part.length < text.length →
      Takes m part (next a) (next' a)) : Takes 1 text (item >>= next) (item' >>= next') :=
  h.andThen hnext (Nat.le_add_right 1 m)

end Sequence

theorem committed (h : Takes n text item item') :
    Takes n text (Reader.committed item) (Reader.committed item') :=
  fun rest hrest => (h rest hrest).committed

theorem orElse_at {other other' : Reader α} (h : Takes n text item item') (hrest : rest <:+ text)
    (hother : Outcome.Takes n rest (other rest) (other' rest)) :
    Outcome.Takes n rest (Reader.orElse item other rest) (Reader.orElse item' other' rest) := by
  rw [Reader.orElse, Reader.orElse]
  rcases h.outcomes hrest with ⟨a, mid, hitem, hitem', hmid, hlength⟩ |
    ⟨failure, hitem, hitem'⟩ | ⟨failure, hitem, hitem'⟩ <;> rw [hitem, hitem']
  · exact .ok hmid hlength
  · exact hother
  · exact .hard

theorem orElse {other other' : Reader α} (h : Takes n text item item')
    (hother : Takes n text other other') :
    Takes n text (Reader.orElse item other) (Reader.orElse item' other') :=
  fun rest hrest => h.orElse_at hrest (hother rest hrest)

theorem optional (h : Takes n text item item') :
    Takes 0 text (Reader.optional item) (Reader.optional item') := by
  intro rest hrest
  rw [Reader.optional, Reader.optional]
  rcases h.any.outcomes hrest with ⟨a, mid, hitem, hitem', hmid, hlength⟩ |
    ⟨failure, hitem, hitem'⟩ | ⟨failure, hitem, hitem'⟩ <;> rw [hitem, hitem']
  · exact .ok hmid hlength
  · exact .ok (List.suffix_refl rest) (Nat.le_refl _)
  · exact .hard

theorem many (h : Takes n text item item') :
    Takes 0 text (Reader.many item) (Reader.many item') := by
  intro rest hrest
  induction hlength : rest.length using Nat.strongRecOn generalizing rest with
  | ind length ih =>
    subst hlength
    rw [Reader.many, Reader.many]
    rcases h.any.outcomes hrest with ⟨a, mid, hitem, hitem', hmid, _⟩ |
      ⟨failure, hitem, hitem'⟩ | ⟨failure, hitem, hitem'⟩ <;> simp only [hitem, hitem']
    · split
      · rename_i hlt
        have hothers := ih mid.length hlt mid (hmid.trans hrest) rfl
        generalize Reader.many item mid = outcome at hothers ⊢
        generalize Reader.many item' mid = outcome' at hothers ⊢
        cases hothers with
        | ok hsuffix hlength => exact .ok (hsuffix.trans hmid) (by omega)
        | soft => exact .soft
        | hard => exact .hard
      · exact .ok (List.suffix_refl rest) (Nat.le_refl _)
    · exact .ok (List.suffix_refl rest) (Nat.le_refl _)
    · exact .hard

section Separated

variable {m : Nat} {separator : Reader Unit} (hseparator : Takes m text separator separator)
  (h : Takes n text item item')
include hseparator h

theorem separated :
    Takes 0 text (Reader.separated separator item) (Reader.separated separator item') := by
  intro rest hrest
  rw [Reader.separated, Reader.separated]
  rcases h.any.outcomes hrest with ⟨a, mid, hitem, hitem', hmid, hlength⟩ |
    ⟨failure, hitem, hitem'⟩ | ⟨failure, hitem, hitem'⟩ <;> simp only [hitem, hitem']
  · have hothers : Takes 0 text (do return a :: (← Reader.many (do separator; item)))
        (do return a :: (← Reader.many (do separator; item'))) :=
      (hseparator.bind fun _ => h).many.bind fun _ => .pure _
    exact (hothers mid (hmid.trans hrest)).within hmid hlength
  · exact .ok (List.suffix_refl rest) (Nat.le_refl _)
  · exact .hard

theorem separatedSome :
    Takes n text (Reader.separatedSome separator item) (Reader.separatedSome separator item') :=
  h.bind fun _ => (hseparator.bind fun _ => h).many.bind fun _ => .pure _

end Separated

end Takes

/-- On shorter texts a restricted reader is the reader. -/
theorem inside_below {inner : Reader α} (h : ∀ rest, rest.length < text.length →
    Outcome.Takes 0 rest (inner rest) (inner rest)) :
    Inside text (below text fun rest _ => inner rest) inner := by
  intro rest _ hlt
  rw [below, dif_pos hlt]
  exact h rest hlt

end Combinators

end Reader
end ProgramTree
