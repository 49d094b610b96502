import ProgramTree.Walk.Basic

/-! # Cancelled walks

There is no signal that ends a walk. A visitor that may be cancelled is wrapped:
once its state says that it is cancelled, every further visit skips the
children without asking it, and the walk runs out quickly. The wrapper
remembers, innermost first, which of the nodes on the way down it has asked the
visitor about, so the visitor sees a node for the last time exactly if it was
asked about it and did not fail.

The memory lasts over several walks. What a failed walk left in it is dropped
as soon as a node is visited whose parent it is not. -/

namespace ProgramTree

set_option autoImplicit false

/-- The state of a wrapped visitor and the nodes entered, innermost first, with a mark on
those that the visitor was asked about. -/
structure Cancellable (σ : Type) where
  inner : σ
  entered : List (NodeId × Bool)

namespace Cancellable

variable {σ : Type}

/-- Drops the nodes up to the parent of the node that is visited. -/
def unwind (site : Site) (entered : List (NodeId × Bool)) : List (NodeId × Bool) :=
  entered.dropWhile fun (id, _) => some id != site.tree.parent? site.id

def visitor (isCancelled : σ → Bool) (v : Visitor σ) : Visitor (Cancellable σ) where
  visit site c :=
    let path := unwind site c.entered
    if isCancelled c.inner then (.ok .skipChildren, ⟨c.inner, (site.id, false) :: path⟩)
    else
      match v.visit site c.inner with
      | (.error refusal, s) => (.error refusal, ⟨s, path⟩)
      | (.ok flow, s) => (.ok flow, ⟨s, (site.id, true) :: path⟩)
  leave site c :=
    match c.entered with
    | (id, asked) :: path =>
      if id = site.id then ⟨if asked then v.leave site c.inner else c.inner, path⟩ else c
    | [] => c

end Cancellable
end ProgramTree
