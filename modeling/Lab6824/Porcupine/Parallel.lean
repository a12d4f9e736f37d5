import Lab6824.Lib.GoMap
import Lab6824.Porcupine.Decides
import Mathlib.Algebra.BigOperators.Fin
import Mathlib.Algebra.Order.BigOperators.Group.Finset

/-!
# Parallel — the check of several histories at once

`checkParallel` starts one goroutine for each history and collects their results from a channel, until
all are there, one is false, or the timer fires.  A `Pool` is what the goroutines share, together with
where each of them is; an action is a step of one of them.  What is proved here holds for every order
of the steps: the result is right, and there is one after a bounded number of steps.
-/

namespace Lab6824.Porcupine

open Lib (Progress RangeOrder)

variable {V S : Type}

/-- A goroutine: in `checkSingle`, about to store `l`, about to send its result, at its end. -/
inductive Worker (V S : Type) where
  | running (st : Single V S)
  | returned (ok : Bool) (l : List (Option Seq))
  | stored (ok : Bool)
  | sent (ok : Bool)
  | crashed

structure LinearizationInfo (V : Type) where
  /-- For each partition, a list of entries. -/
  history : List (List (Entry V)) := []
  /-- For each partition, a set of histories (lists of ids). -/
  partialLinearizations : List (List (List Nat)) := []

/-- The function itself: in the `select`, waiting for the remaining goroutines, or at its end. -/
inductive Main (V : Type) where
  | selecting (count : Nat) (ok : Bool)
  | draining (count : Nat) (ok timedOut : Bool)
  | finished (result : CheckResult) (info : LinearizationInfo V)

/-- The result that the function has returned. -/
def Main.result : Main V → Option CheckResult
  | .finished result _ => some result
  | _ => none

structure Pool (V S : Type) (N : Nat) where
  workers : Fin N → Worker V S
  /-- The channel, with room for the results of all goroutines. -/
  results : List Bool
  longest : Fin N → List (Option Seq)
  kill : Bool
  main : Main V

inductive PoolAction (N : Nat) where
  | work (i : Fin N)
  | receive
  | timeout

/-- There are finitely many actions, so whether any of them can be taken is decided by trying. -/
instance PoolAction.decidableForall {N : Nat} (P : PoolAction N → Prop) [DecidablePred P] :
    Decidable (∀ a, P a) :=
  decidable_of_iff ((∀ i, P (.work i)) ∧ P .receive ∧ P .timeout)
    ⟨fun h a ↦ match a with
      | .work i => h.1 i
      | .receive => h.2.1
      | .timeout => h.2.2,
    fun h ↦ ⟨fun i ↦ h (.work i), h .receive, h .timeout⟩⟩

/-- The lists to which `longest` points, without repetition, in the order of a `range` over a map. -/
def partials (ord : RangeOrder Seq) (longest : List (Option Seq)) : List (List Nat) :=
  (ord.visit (longest.filterMap id).toFinset).map Seq.order

def checkResult (ok timedOut : Bool) : CheckResult :=
  if !ok then .illegal else if timedOut then .unknown else .ok

namespace Worker

def start (model : FullModel V S) (subhistory : List (Entry V)) : Worker V S :=
  match Single.start model subhistory with
  | some st => .running st
  | none => .crashed

/-- Where a round of `checkSingle` leads. -/
def after : Progress (Single V S) Outcome → Worker V S
  | .going st => .running st
  | .done (.returned ok l) => .returned ok l
  | .done .panicked => .crashed

end Worker

namespace Pool

section Step

variable (model : FullModel V S) (history : List (List (Entry V))) (computeInfo : Bool)
  (timeout : Int) (ords : Fin history.length → RangeOrder Seq)

def init : Pool V S history.length where
  workers i := .start model (history.get i)
  results := []
  longest _ := []
  kill := false
  main := .selecting 0 true

def info (longest : Fin history.length → List (Option Seq)) : LinearizationInfo V :=
  if computeInfo then
    { history := history
      partialLinearizations := List.ofFn fun i ↦ partials (ords i) (longest i) }
  else {}

/-- What follows the loop. -/
def afterLoop (longest : Fin history.length → List (Option Seq)) (count : Nat)
    (ok timedOut : Bool) : Main V :=
  if computeInfo ∧ count < history.length then .draining count ok timedOut
  else .finished (checkResult ok timedOut) (info history computeInfo ords longest)

def step (p : Pool V S history.length) : PoolAction history.length → Option (Pool V S history.length)
  | .work i =>
    match p.workers i with
    | .running st =>
      some { p with
        workers := Function.update p.workers i (.after (st.body model computeInfo p.kill)) }
    | .returned ok l =>
      some { p with
        longest := Function.update p.longest i l
        workers := Function.update p.workers i (.stored ok) }
    | .stored ok =>
      if p.results.length < history.length then
        some { p with
          results := p.results ++ [ok]
          workers := Function.update p.workers i (.sent ok) }
      else none
    | .sent _ => none
    | .crashed => none
  | .receive =>
    match p.results, p.main with
    | result :: results, .selecting count ok =>
      let count := count + 1
      let ok := ok && result
      if !ok && !computeInfo then
        some { p with
          results := results
          kill := true
          main := afterLoop history computeInfo ords p.longest count ok false }
      else if count ≥ history.length then
        some { p with
          results := results
          main := afterLoop history computeInfo ords p.longest count ok false }
      else some { p with results := results, main := .selecting count ok }
    | _ :: results, .draining count ok timedOut =>
      some { p with
        results := results
        main := afterLoop history computeInfo ords p.longest (count + 1) ok timedOut }
    | _, _ => none
  | .timeout =>
    match p.main with
    | .selecting count ok =>
      if timeout > 0 then
        some { p with
          kill := true
          main := afterLoop history computeInfo ords p.longest count ok true }
      else none
    | _ => none

end Step

/-! ## What a goroutine knows -/

/-- A result is right, or the goroutine has read `kill` when it was set. -/
def Told (model : FullModel V S) (entries : List (Entry V)) (computeInfo kill ok : Bool)
    (l : List (Option Seq)) : Prop :=
  ∃ killed, (killed = true → kill = true) ∧ Verdict model entries computeInfo killed ok l

/-- The goroutine for `entries`, with `w` steps left at most; `l` is what stands in `longest`. -/
def WorkerInv (model : FullModel V S) (entries : List (Entry V)) (computeInfo kill : Bool)
    (l : List (Option Seq)) (w : Nat) : Worker V S → Prop
  | .running st => ∃ n heap rounds, Setting entries n heap ∧
      Checking model entries n heap computeInfo rounds st ∧ w = rounds + 3
  | .returned ok l' => w = 2 ∧ Told model entries computeInfo kill ok l'
  | .stored ok => w = 1 ∧ Told model entries computeInfo kill ok l
  | .sent ok => w = 0 ∧ Told model entries computeInfo kill ok l
  | .crashed => False

section Workers

variable {model : FullModel V S} {entries : List (Entry V)} {computeInfo kill : Bool}
  {l : List (Option Seq)} {w : Nat}

theorem Told.mono {ok kill' : Bool} (h : Told model entries computeInfo kill ok l)
    (hkill : kill = true → kill' = true) : Told model entries computeInfo kill' ok l := by
  obtain ⟨killed, himp, hv⟩ := h
  exact ⟨killed, fun hk ↦ hkill (himp hk), hv⟩

theorem WorkerInv.mono {kill' : Bool} {worker : Worker V S}
    (h : WorkerInv model entries computeInfo kill l w worker)
    (hkill : kill = true → kill' = true) :
    WorkerInv model entries computeInfo kill' l w worker := by
  cases worker with
  | running st => exact h
  | returned ok l' => exact ⟨h.1, h.2.mono hkill⟩
  | stored ok => exact ⟨h.1, h.2.mono hkill⟩
  | sent ok => exact ⟨h.1, h.2.mono hkill⟩
  | crashed => exact h

theorem workerInv_start (hcheck : Checkable model entries) :
    WorkerInv model entries computeInfo kill l (rounds entries + 3) (.start model entries) := by
  obtain ⟨n, hproper⟩ := hcheck.proper
  obtain ⟨heap, st, hst, hset, hchecking⟩ :=
    checking_start model computeInfo hproper
  rw [Worker.start, hst]
  exact ⟨n, heap, _, hset, hchecking, rfl⟩

/-- A round of `checkSingle`. -/
theorem WorkerInv.round (hcheck : Checkable model entries) {st : Single V S}
    (h : WorkerInv model entries computeInfo kill l w (.running st)) :
    ∃ w' < w, WorkerInv model entries computeInfo kill l w'
      (.after (st.body model computeInfo kill)) := by
  obtain ⟨n, heap, r, hset, hchecking, rfl⟩ := h
  rcases hchecking.body hset hcheck.applies hcheck.equal kill with
    ⟨st', r', hbody, hlt, hst'⟩ | ⟨ok, l', hbody, hv⟩
  · rw [hbody]
    exact ⟨r' + 3, by omega, n, heap, r', hset, hst', rfl⟩
  · rw [hbody]
    exact ⟨2, by omega, rfl, kill, fun hk ↦ hk, hv⟩

end Workers

/-! ## Counting results -/

/-- One for a goroutine that has sent its result. -/
def sentOne : Worker V S → Nat
  | .sent _ => 1
  | _ => 0

/-- One for a goroutine that has sent false. -/
def sentFalse : Worker V S → Nat
  | .sent false => 1
  | _ => 0

theorem sentFalse_sent (ok : Bool) :
    sentFalse (.sent ok : Worker V S) = [ok].count false := by
  cases ok <;> rfl

theorem sum_update {N : Nat} {α : Type} (g : α → Nat) (f : Fin N → α) (i : Fin N) (a : α) :
    ∑ j, g (Function.update f i a j) + g (f i) = ∑ j, g (f j) + g a := by
  have hcomp : (fun j ↦ g (Function.update f i a j)) = Function.update (fun j ↦ g (f j)) i (g a) := by
    ext j
    by_cases hj : j = i
    · simp [hj]
    · simp [hj]
  rw [hcomp, Finset.sum_update_of_mem (Finset.mem_univ i),
    ← Finset.add_sum_erase _ _ (Finset.mem_univ i), Finset.sdiff_singleton_eq_erase]
  omega

theorem sum_sentOne_le {N : Nat} (workers : Fin N → Worker V S) :
    ∑ j, sentOne (workers j) ≤ N := by
  have hle : ∑ j, sentOne (workers j) ≤ ∑ _j : Fin N, 1 := by
    apply Finset.sum_le_sum
    intro j _
    cases workers j <;> simp [sentOne]
  simpa using hle

/-- While one has not sent, there are not `N` results. -/
theorem sum_sentOne_lt {N : Nat} {workers : Fin N → Worker V S} {i : Fin N}
    (h : sentOne (workers i) = 0) : ∑ j, sentOne (workers j) < N := by
  have hlt : ∑ j, sentOne (workers j) < ∑ _j : Fin N, 1 := by
    apply Finset.sum_lt_sum
    · intro j _
      cases workers j <;> simp [sentOne]
    · exact ⟨i, Finset.mem_univ i, by rw [h]; exact Nat.one_pos⟩
  simpa using hlt

/-- If all have sent, each has. -/
theorem exists_sent {N : Nat} {workers : Fin N → Worker V S}
    (h : ∑ j, sentOne (workers j) = N) (i : Fin N) : ∃ ok, workers i = .sent ok := by
  cases hworker : workers i with
  | sent ok => exact ⟨ok, rfl⟩
  | _ =>
      have hzero : sentOne (workers i) = 0 := by rw [hworker]; rfl
      exact absurd h (sum_sentOne_lt hzero).ne

theorem exists_sent_false {N : Nat} {workers : Fin N → Worker V S}
    (h : 0 < ∑ j, sentFalse (workers j)) : ∃ i, workers i = .sent false := by
  obtain ⟨i, _, hi⟩ := Finset.exists_ne_zero_of_sum_ne_zero h.ne'
  refine ⟨i, ?_⟩
  cases hworker : workers i with
  | sent ok =>
      cases ok with
      | false => rfl
      | true => rw [hworker] at hi; exact absurd rfl hi
  | _ => rw [hworker] at hi; exact absurd rfl hi

end Pool

end Lab6824.Porcupine
