-- SUMMARY: QoS policies and their compatibility, from `bus/qos.h`.

/-!
# QoS

What a publisher offers must be at least as strong as what a subscriber requests.
Durations are signed 64-bit counts of nanoseconds; a count that is not positive
switches the policy off.
-/

namespace Rdb

inductive Reliability where
  | bestEffort
  | reliable
  deriving DecidableEq, Repr

inductive Durability where
  | volatile
  | transientLocal
  deriving DecidableEq, Repr

inductive HistoryKind where
  | keepLast
  | keepAll
  deriving DecidableEq, Repr

structure QoS where
  reliability : Reliability := .reliable
  durability : Durability := .volatile
  history : HistoryKind := .keepLast
  depth : Nat := 10
  deadline : Int64 := 0
  lifespan : Int64 := 0
  deriving DecidableEq, Repr

namespace QoS

def sensorData (depth : Nat := 5) : QoS :=
  { reliability := .bestEffort, durability := .volatile, depth }

def command (depth : Nat := 32) : QoS :=
  { reliability := .reliable, durability := .volatile, depth }

def latched (depth : Nat := 1) : QoS :=
  { reliability := .reliable, durability := .transientLocal, depth }

end QoS

inductive QosMismatch where
  | none
  | reliability
  | durability
  | deadline
  deriving DecidableEq, Repr

/-- The first policy on which `offered` is weaker than `requested`. -/
def checkCompatible (offered requested : QoS) : QosMismatch :=
  if offered.reliability = .bestEffort ∧ requested.reliability = .reliable then .reliability
  else if offered.durability = .volatile ∧ requested.durability = .transientLocal then .durability
  else if requested.deadline > 0 then
    if offered.deadline = 0 ∨ offered.deadline > requested.deadline then .deadline
    else .none
  else .none

end Rdb
