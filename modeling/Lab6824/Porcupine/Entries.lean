import Lab6824.Lib.Marks
import Lab6824.Lib.Sorting
import Lab6824.Porcupine.Model

/-!
# Entries — histories as lists of calls and returns

`makeEntries` turns operations with their times into calls and returns and sorts them; where times are
equal, calls come first.

The checker expects `Proper` entries: every operation is called once and returns once, later, and
the operations are numbered from zero on.
-/

namespace Lab6824.Porcupine

open Lib (Mark)

inductive EntryKind where
  | callEntry
  | returnEntry
  deriving DecidableEq

structure Entry (V : Type) where
  kind : EntryKind
  value : V
  id : Nat
  time : Int
  clientId : Int
  deriving DecidableEq

variable {V : Type}

/-- The order of `byTime`. -/
def Entry.less (a b : Entry V) : Bool :=
  if a.time ≠ b.time then a.time < b.time
  else a.kind = .callEntry ∧ b.kind = .returnEntry

theorem Entry.less_iff {a b : Entry V} : Entry.less a b = true ↔
    a.time < b.time ∨ a.time = b.time ∧ a.kind = .callEntry ∧ b.kind = .returnEntry := by
  unfold Entry.less
  split
  · rename_i hne
    simp [hne]
  · rename_i heq
    rw [not_not] at heq
    simp [heq]

theorem Entry.less_asymm (a b : Entry V) (h : Entry.less a b = true) : Entry.less b a = false := by
  rw [Bool.eq_false_iff]
  intro hback
  rw [Entry.less_iff] at h hback
  rcases h with hlt | ⟨heq, hcall, _⟩
  · omega
  · rcases hback with hlt | ⟨_, _, hret⟩
    · omega
    · rw [hcall] at hret
      cases hret

theorem Entry.less_trans (a b c : Entry V) (hba : Entry.less b a = false)
    (hcb : Entry.less c b = false) : Entry.less c a = false := by
  rw [Bool.eq_false_iff, ne_eq, Entry.less_iff] at *
  rintro (hlt | ⟨heq, hcall, hret⟩)
  · omega
  · have htimes : b.time = a.time ∧ c.time = b.time := by omega
    cases hkind : b.kind with
    | callEntry => exact hba (Or.inr ⟨htimes.1, hkind, hret⟩)
    | returnEntry => exact hcb (Or.inr ⟨htimes.2, hcall, hkind⟩)

/-- A sort by time that is stable. -/
def stableByTime : Lib.Sorter (Entry.less (V := V)) :=
  Lib.Sorter.insertion Entry.less_asymm Entry.less_trans

def Operation.callEntry (elem : Operation V) (id : Nat) : Entry V :=
  { kind := .callEntry, value := elem.input, id := id, time := elem.call, clientId := elem.clientId }

def Operation.returnEntry (elem : Operation V) (id : Nat) : Entry V :=
  { kind := .returnEntry, value := elem.output, id := id, time := elem.ret
    clientId := elem.clientId }

/-- The loop of `makeEntries`. -/
def operationEntries (history : List (Operation V)) : List (Entry V) :=
  history.zipIdx.flatMap fun (elem, id) ↦ [elem.callEntry id, elem.returnEntry id]

def makeEntries (byTime : Lib.Sorter (Entry.less (V := V))) (history : List (Operation V)) :
    List (Entry V) :=
  byTime.sort (operationEntries history)

def Entry.mark (e : Entry V) : Mark Nat :=
  match e.kind with
  | .callEntry => .call e.id
  | .returnEntry => .ret e.id

/-- The entries of `n` operations. -/
structure Proper (entries : List (Entry V)) (n : Nat) : Prop where
  complete : Lib.Complete (entries.map Entry.mark)
  length : entries.length = 2 * n
  ids : ∀ i, .call i ∈ entries.map Entry.mark ↔ i < n

end Lab6824.Porcupine
