import Mathlib.Data.List.Basic

/-!
# Model — what the checker is given

`V` stands for `interface{}`: the inputs and outputs of the operations.  The functions of a model
assert the types of what they are given; where that panics they are `none` here.  A function that a
model may leave out is an option.
-/

namespace Lab6824.Porcupine

structure Operation (V : Type) where
  clientId : Int
  input : V
  call : Int
  output : V
  ret : Int
  deriving DecidableEq

inductive EventKind where
  | callEvent
  | returnEvent
  deriving DecidableEq

structure Event (V : Type) where
  clientId : Int
  kind : EventKind
  value : V
  id : Int
  deriving DecidableEq

structure Model (V S : Type) where
  partition : Option (List (Operation V) → Option (List (List (Operation V))))
  partitionEvent : Option (List (Event V) → Option (List (List (Event V))))
  init : S
  step : S → V → V → Option (Bool × S)
  equal : Option (S → S → Bool)

def noPartition {V : Type} (history : List (Operation V)) : Option (List (List (Operation V))) :=
  some [history]

def noPartitionEvent {V : Type} (history : List (Event V)) : Option (List (List (Event V))) :=
  some [history]

def shallowEqual {S : Type} [DecidableEq S] (state1 state2 : S) : Bool :=
  state1 = state2

inductive CheckResult where
  | unknown
  | ok
  | illegal
  deriving DecidableEq

/-- A model in which nothing is left out. -/
structure FullModel (V S : Type) where
  partition : List (Operation V) → Option (List (List (Operation V)))
  partitionEvent : List (Event V) → Option (List (List (Event V)))
  init : S
  step : S → V → V → Option (Bool × S)
  equal : S → S → Bool

/-- The functions for the description of operations and states play no role in the check. -/
def fillDefault {V S : Type} [DecidableEq S] (model : Model V S) : FullModel V S where
  partition := model.partition.getD noPartition
  partitionEvent := model.partitionEvent.getD noPartitionEvent
  init := model.init
  step := model.step
  equal := model.equal.getD shallowEqual

end Lab6824.Porcupine
