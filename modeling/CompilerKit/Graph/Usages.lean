/-! # Usage lists

The users of a node, one entry for each input slot that holds the node. The first two entries have
places of their own, the others stand in a table that grows when it is full. An empty place ends the
list.
-/

namespace CompilerKit

abbrev NodeId := Nat

structure Usages where
  first? : Option NodeId := none
  second? : Option NodeId := none
  /-- The places from the third on. -/
  more : Array (Option NodeId) := #[]
  /-- The number of places of the table that are taken. -/
  moreCount : Nat := 0

namespace Usages

/-- The places that stand outside of the table. -/
def inlineCount : Nat := 2

def count (us : Usages) : Nat :=
  if us.first?.isNone then 0
  else if us.second?.isNone then 1
  else inlineCount + us.moreCount

def at? (us : Usages) : Nat → Option NodeId
  | 0 => us.first?
  | 1 => us.second?
  | k + 2 => us.more[k]?.join

def put (us : Usages) (k : Nat) (user? : Option NodeId) : Usages :=
  match k with
  | 0 => { us with first? := user? }
  | 1 => { us with second? := user? }
  | k + 2 => { us with more := us.more.setIfInBounds k user? }

/-- The entries up to the first empty place. -/
def toList (us : Usages) : List NodeId :=
  (((List.range (inlineCount + us.moreCount)).map us.at?).takeWhile Option.isSome).filterMap id

/-- The table with room for one more entry. -/
def grown (us : Usages) : Array (Option NodeId) :=
  if us.more.size = 0 then Array.replicate 4 none
  else if us.moreCount = us.more.size then us.more ++ Array.replicate (us.more.size + 1) none
  else us.more

def add (us : Usages) (user : NodeId) : Usages :=
  if us.first?.isNone then { us with first? := some user }
  else if us.second?.isNone then { us with second? := some user }
  else
    { us with
      more := us.grown.setIfInBounds us.moreCount (some user)
      moreCount := us.moreCount + 1 }

def ofList (users : List NodeId) : Usages := users.foldl add {}

/-- Takes out the entry at a position; the last entry moves there. -/
def moveLastTo (us : Usages) (k : Nat) : Usages :=
  let last := us.count - 1
  let moved := (us.put k (us.at? last)).put last none
  if last < inlineCount then moved else { moved with moreCount := us.moreCount - 1 }

/-- The position a user is removed from: one of the first two if it is there, otherwise the last. -/
def position? (us : Usages) (user : NodeId) : Option Nat :=
  if us.first? = some user then some 0
  else if us.second? = some user then some 1
  else
    ((List.range us.moreCount).reverse.find? fun k => us.more[k]?.join = some user).map
      (· + inlineCount)

def remove (us : Usages) (user : NodeId) : Usages := (us.position? user).elim us us.moveLastTo

end Usages

end CompilerKit
