import CardShell.Action
import CardShell.Error

/-!
The accounts of the firmware's heap: how much is in use, in how many blocks, and a countdown to
one allocation that is to fail.
-/

set_option autoImplicit false

namespace CardShell

structure Heap where
  capacity : Nat
  inUse : Nat := 0
  live : Nat := 0
  total : Nat := 0
  frees : Nat := 0
  peak : Nat := 0
  /-- Attempts still allowed before the one that fails. -/
  failIn : Option Nat := none
  deriving DecidableEq, Repr, Inhabited

namespace Heap

def largestFree (h : Heap) : Nat := h.capacity - h.inUse

def failurePending (h : Heap) : Bool := h.failIn.isSome

def failAfter (n : Nat) (h : Heap) : Heap := { h with failIn := some n }

def clearFailure (h : Heap) : Heap := { h with failIn := none }

/-- Whether the failure is due now, and the heap after this attempt was counted. -/
def countdown (h : Heap) : Bool × Heap :=
  match h.failIn with
  | none => (false, h)
  | some 0 => (true, { h with failIn := none })
  | some (n + 1) => (false, { h with failIn := some n })

def take (bytes : Nat) (h : Heap) : Heap :=
  { h with
    inUse := h.inUse + bytes
    live := h.live + 1
    total := h.total + 1
    peak := max h.peak (h.inUse + bytes) }

def release (bytes : Nat) (h : Heap) : Heap :=
  { h with inUse := h.inUse - bytes, live := h.live - 1, frees := h.frees + 1 }

def reserve (bytes : Nat) : Action Error Heap Unit := do
  let (due, h) := (← get).countdown
  set h
  if due then throw .outOfMemory
  if h.largestFree < bytes then throw .outOfMemory
  set (h.take bytes)

/-- What a text takes: its bytes and one to end it. -/
def textBlock (t : Text) : Nat := t.size + 1

end Heap

end CardShell
