import GroupCommit.Error

/-!
# Phases of a slot and kinds of flush

In which phase of its current generation a slot can be, and how much of a generation one flush
writes.
-/

namespace GroupCommit

/-- How much of its slot a flush covers. -/
inductive FlushKind where
  /-- The whole slot, once every byte of it is filled. -/
  | full
  /-- The bytes filled so far, when a waiter's deadline passes first. -/
  | early
  deriving DecidableEq, Repr

/-- The name of a kind of flush, as messages show it. -/
def FlushKind.name : FlushKind → String
  | full => "Full"
  | early => "Partial"

/-- What is happening to a slot's current generation. -/
inductive Phase where
  /-- Bytes of the current generation are accepted. -/
  | filling
  /-- Every byte is in; the next joiner takes the flush. -/
  | full
  /-- A caller writes the full slot. -/
  | flushing
  /-- A caller writes the filled part of the slot, its deadline having passed. -/
  | reserving
  /-- Nothing happens any more, for this reason. -/
  | poisoned (reason : PoisonReason)
  deriving DecidableEq, Repr

namespace Phase

/-- The name of a phase, as messages show it. -/
def name : Phase → String
  | filling => "Filling"
  | full => "Full"
  | flushing => "Flushing"
  | reserving => "Reserving"
  | poisoned _ => "Poisoned"

/-- The reason for which a slot in this phase is poisoned. -/
def poisonReason? : Phase → Option PoisonReason
  | poisoned reason => some reason
  | _ => none

/-- This phase after poisoning for `reason`: the first reason stays. -/
def poison (phase : Phase) (reason : PoisonReason) : Phase :=
  .poisoned (phase.poisonReason?.getD reason)

end Phase

end GroupCommit
