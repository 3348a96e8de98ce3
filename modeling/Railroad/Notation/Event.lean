import Railroad.Notation.Expected
set_option autoImplicit false

/-!
# What happens while a text is read

Trying the rules of the notation on a text leaves a list of events: every failed attempt with its
offset, also on paths that were given up later, and every group that was entered or left. What is
said about a text that does not fit the notation is a function of these events: the failure that
lies furthest (`furthest`) and everything that was looked for there (`expectedAt`).
-/

namespace Railroad.Notation

/-- One thing that happened while a text was read. -/
inductive Event where
  /-- A rule did not find what it looked for at an offset. -/
  | failed (offset : Nat) (expected : Expected)
  /-- A group was entered, whose opening parenthesis lies at an offset. -/
  | opened (offset : Nat)
  /-- The group entered last was left, whether or not it was complete. -/
  | closed
  deriving DecidableEq, Repr

namespace Event

/-- The failures among some events. -/
def failures : List Event → List (Nat × Expected)
  | [] => []
  | .failed offset expected :: rest => (offset, expected) :: failures rest
  | .opened _ :: rest => failures rest
  | .closed :: rest => failures rest

/-- The greatest offset of a failure; the start of the text when nothing failed. -/
def furthest (events : List Event) : Nat :=
  ((failures events).map Prod.fst).foldl max 0

/-- What was looked for in vain at an offset, in order and without repetition. -/
def expectedAt (offset : Nat) (events : List Event) : List Expected :=
  Ascending.ofList Expected.compare
    (((failures events).filter (·.1 == offset)).map Prod.snd)

/-- The offsets that exceed both `reached` and every offset before them. -/
def records (reached : Nat) : List Nat → List Nat
  | [] => []
  | offset :: rest =>
      if reached < offset then offset :: records offset rest else records reached rest

/-- The offsets at which the furthest failure moved on, one after the other. -/
def advances (events : List Event) : List Nat :=
  records 0 ((failures events).map Prod.fst)

end Event

end Railroad.Notation
