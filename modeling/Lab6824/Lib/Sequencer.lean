import Lab6824.Lib.System
import Mathlib.Data.List.Infix
import Mathlib.Logic.Function.Basic

/-!
# Sequencer — one sequence of commands for many subscribers

What a replicated log is for: commands are submitted, some of them are put into one sequence, and
each subscriber is handed the sequence from its beginning, one command after the other.  A subscriber
that restarts begins again.  Which commands are taken into the sequence, when and how often, is left
open.
-/

namespace Lab6824.Lib

variable {S C : Type*}

structure Sequencer (S C : Type*) where
  submitted : List C := []
  sequence : List C := []
  /-- How many commands each subscriber has been handed since it started. -/
  handed : S → Nat

inductive Sequencing (S C : Type*) where
  | submit (c : C)
  /-- The sequence is extended. -/
  | order (c : C)
  | hand (s : S)
  | restart (s : S)

/-- What is seen of a sequencer from outside. -/
inductive Signal (S C : Type*) where
  | submitted (c : C)
  | handed (s : S) (index : Int) (c : C)
  | restarted (s : S)
  deriving DecidableEq

namespace Sequencer

def start (S C : Type*) : Sequencer S C where
  handed := fun _ ↦ 0

section Step

variable [DecidableEq S] [DecidableEq C]

def step (q : Sequencer S C) : Sequencing S C → Option (Sequencer S C)
  | .submit c => some { q with submitted := c :: q.submitted }
  | .order c => if c ∈ q.submitted then some { q with sequence := q.sequence ++ [c] } else none
  | .hand s =>
    if q.handed s < q.sequence.length then
      some { q with handed := Function.update q.handed s (q.handed s + 1) }
    else none
  | .restart s => some { q with handed := Function.update q.handed s 0 }

end Step

def signals (q : Sequencer S C) : Sequencing S C → List (Signal S C)
  | .submit c => [.submitted c]
  | .order _ => []
  | .hand s => (q.sequence[q.handed s]?).toList.map (.handed s (q.handed s + 1 : Nat))
  | .restart s => [.restarted s]

variable [DecidableEq S] [DecidableEq C] {q : Sequencer S C}

/-- Submitted commands can be put into the sequence one after the other, unseen. -/
theorem run_order {cs : List C} (h : ∀ c ∈ cs, c ∈ q.submitted) :
    run step q (cs.map .order) = some { q with sequence := q.sequence ++ cs } ∧
      observed step signals q (cs.map .order) = [] := by
  induction cs generalizing q with
  | nil =>
      rw [List.append_nil]
      exact ⟨rfl, rfl⟩
  | cons c cs ih =>
      have hstep : q.step (.order c) = some { q with sequence := q.sequence ++ [c] } :=
        if_pos (h c List.mem_cons_self)
      obtain ⟨hrun, hobs⟩ := ih (q := { q with sequence := q.sequence ++ [c] })
        fun d hd ↦ h d (List.mem_cons_of_mem c hd)
      rw [List.map_cons]
      constructor
      · refine run_cons.mpr ⟨_, hstep, ?_⟩
        rw [hrun, List.append_assoc]
        rfl
      · rw [observed_cons hstep, hobs]
        rfl

end Sequencer

end Lab6824.Lib
