/-! # Heaps

A heap hands out first an entry that no other one goes before. The entries at the positions `2 * k + 1` and
`2 * k + 2` do not go before the one at position `k`; which of several equal entries comes first depends on
how they came to their positions, and on which way the comparison tells equal entries apart if it does.
-/

namespace CompilerKit

abbrev Heap (α : Type) := Array α

namespace Heap

variable {α : Type} (cmp : α → α → Ordering)

/-- Moves the entry at a position towards the front, past those that it goes before. At least half of
the way is left behind with each step, so the position itself bounds their number. -/
def siftUp : Nat → Heap α → Nat → Heap α
  | 0, h, _ => h
  | fuel + 1, h, k =>
    let parent := (k - 1) / 2
    match h[k]?, h[parent]? with
    | some x, some y => if cmp x y = .lt then siftUp fuel (h.swapIfInBounds k parent) parent else h
    | _, _ => h

/-- The left position below `k`, or the right one if the entry on the left goes after it. -/
def child (h : Heap α) (k : Nat) : Nat :=
  match h[2 * k + 1]?, h[2 * k + 2]? with
  | some x, some y => if cmp x y = .gt then 2 * k + 2 else 2 * k + 1
  | _, _ => 2 * k + 1

/-- Moves the entry at a position towards the end, past those that it goes after. -/
def siftDown : Nat → Heap α → Nat → Heap α
  | 0, h, _ => h
  | fuel + 1, h, k =>
    let child := child cmp h k
    match h[k]?, h[child]? with
    | some x, some y => if cmp x y = .gt then siftDown fuel (h.swapIfInBounds k child) child else h
    | _, _ => h

def insert (h : Heap α) (x : α) : Heap α := siftUp cmp h.size (h.push x) h.size

/-- The first entry and the heap without it; the last entry is moved down from the front. -/
def takeFirst? (h : Heap α) : Option (α × Heap α) :=
  h[0]?.map fun x =>
    let rest := (h.swapIfInBounds 0 (h.size - 1)).pop
    (x, siftDown cmp rest.size rest 0)

end Heap

end CompilerKit
