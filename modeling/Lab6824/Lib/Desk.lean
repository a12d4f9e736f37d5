import Lab6824.Lib.Waiters
import Lab6824.Lib.System

/-!
# Desk — where answers are handed out

The goroutines of one server around its table of channels.  Other than in `Service` nothing is known
about the operations that the applier is given, or about their order, except that no index is given
twice before the server restarts; the state may be replaced between two operations, and an operation
may have no result.
-/

namespace Lab6824.Lib

/-- `R` is a request and `O` an operation as it is applied; `T` tells calls apart. -/
structure Exchange (S R O A T K : Type) extends Calls R O T K where
  exec : S → O → Option (S × A)

/-- An operation that the applier was given, and the state that it was applied to. -/
structure Delivery (S O : Type) where
  before : S
  op : O
  index : Int

structure Desk (S R O A K : Type) extends Waiters R O A K where
  state : S
  /-- What the applier has been given since the server was started; no action reads it. -/
  delivered : List (Delivery S O) := []

inductive DeskAction (S R O : Type) where
  | dealRequest (r : R)
  | start (k : Nat) (index : Int) (isLeader : Bool)
  | getWaitChan (k : Nat)
  | receive (k : Nat)
  | timeout (k : Nat)
  | deleteWaitChan (k : Nat)
  | deliver (op : O) (index : Int)
  | getState (isLeader : Bool)
  | applierChan
  | send
  /-- The end of the applier's loop. -/
  | next
  /-- The state comes from elsewhere. -/
  | install (state : S)
  | restart (state : S)

variable {S R O A T K : Type}

namespace Desk

/-- The goroutines have moved. -/
def moved (d : Desk S R O A K) (w : Waiters R O A K) : Desk S R O A K :=
  { d with toWaiters := w }

variable [DecidableEq K] (x : Exchange S R O A T K) (d : Desk S R O A K)

def deliver (op : O) (index : Int) : Option (Desk S R O A K) :=
  match d.applier with
  | .idle =>
    match x.exec d.state op with
    | none => none
    | some (state, answer) =>
      some
        { d with
          state := state
          applier := .applied op index answer
          delivered := ⟨d.state, op, index⟩ :: d.delivered }
  | _ => none

def install (state : S) : Option (Desk S R O A K) :=
  match d.applier with
  | .idle => some { d with state := state }
  | _ => none

def step : DeskAction S R O → Option (Desk S R O A K)
  | .dealRequest r => some (d.moved (d.enter r))
  | .start k index isLeader => (d.start k index isLeader).map fun r ↦ d.moved r.1
  | .getWaitChan k => (d.handlerChan x.toCalls k).map d.moved
  | .receive k => (d.receive x.toCalls k).map fun r ↦ d.moved r.1
  | .timeout k => (d.timeout x.toCalls k).map fun r ↦ d.moved r.1
  | .deleteWaitChan k => (d.deleteWaitChan k).map d.moved
  | .deliver op index => d.deliver x op index
  | .getState isLeader => (d.getState isLeader).map d.moved
  | .applierChan => (d.applierChan x.toCalls).map d.moved
  | .send => d.send.map d.moved
  | .next => d.next.map d.moved
  | .install state => d.install state
  | .restart state => some { state := state }

/-- The index of the operation is a new one. -/
def Fresh (d : Desk S R O A K) : DeskAction S R O → Prop
  | .deliver _ index => ∀ e ∈ d.delivered, e.index ≠ index
  | _ => True

instance (d : Desk S R O A K) (a : DeskAction S R O) : Decidable (d.Fresh a) := by
  unfold Fresh
  induction a using DeskAction.casesOn <;> infer_instance

/-! ## The invariant -/

section Invariant

variable {x : Exchange S R O A T K} {d d' : Desk S R O A K} {w : Waiters R O A K}
  {delivered : List (Delivery S O)} {busy : Option Int} {op : O} {t : T} {index : Int} {answer : A}

/-- The answer is what the operation gave, at its index. -/
def Computed (x : Exchange S R O A T K) (delivered : List (Delivery S O)) (op : O) (index : Int)
    (answer : A) : Prop :=
  ∃ e ∈ delivered, e.op = op ∧ e.index = index ∧ ∃ state, x.exec e.before op = some (state, answer)

/-- An operation of the call gave the answer. -/
def Has (x : Exchange S R O A T K) (delivered : List (Delivery S O)) (t : T) (index : Int)
    (answer : A) : Prop :=
  ∃ op, x.ident op = t ∧ Computed x delivered op index answer

/-- An answer that may stand in the table was given at an index that the applier is done with. -/
def Good (x : Exchange S R O A T K) (delivered : List (Delivery S O)) (busy : Option Int) (t : T)
    (index : Int) (answer : A) : Prop :=
  busy ≠ some index ∧ Has x delivered t index answer

def Inv (x : Exchange S R O A T K) (d : Desk S R O A K) : Prop :=
  d.toWaiters.Inv x.toCalls (Good x d.delivered d.applier.current) (Has x d.delivered)

omit [DecidableEq K] in
theorem Good.done (h : Good x delivered busy t index answer) :
    Good x delivered none t index answer :=
  ⟨Option.some_ne_none index ∘ Eq.symm, h.2⟩

omit [DecidableEq K] in
theorem Has.good (h : Has x delivered t index answer) : Good x delivered none t index answer :=
  ⟨Option.some_ne_none index ∘ Eq.symm, h⟩

namespace Inv

theorem boot (state : S) : Inv x ({ state := state } : Desk S R O A K) :=
  Waiters.Inv.empty

/-- The applier stands where it stood. -/
theorem moved (h : w.Inv x.toCalls (Good x d.delivered d.applier.current) (Has x d.delivered))
    (happlier : w.applier = d.applier) : Inv x (d.moved w) := by
  show w.Inv x.toCalls (Good x d.delivered w.applier.current) (Has x d.delivered)
  rw [happlier]
  exact h

/-- The applier is done with its operation. -/
theorem moved_done (h : w.Inv x.toCalls (Good x d.delivered busy) (Has x d.delivered))
    (hdone : w.applier.current = none) : Inv x (d.moved w) := by
  show w.Inv x.toCalls (Good x d.delivered w.applier.current) (Has x d.delivered)
  rw [hdone]
  exact h.mono (fun _ _ _ ↦ Good.done) fun _ _ _ ↦ id

/-- The applier is at work on the same operation or done with it. -/
theorem moved_applier (h : w.Inv x.toCalls (Good x d.delivered d.applier.current) (Has x d.delivered))
    (hmoves : d.toWaiters.ApplierMoves w) : Inv x (d.moved w) := by
  rcases hmoves.current with hsame | hdone
  · show w.Inv x.toCalls (Good x d.delivered w.applier.current) (Has x d.delivered)
    rw [hsame]
    exact h
  · exact moved_done h hdone

/-! ### One action at a time -/

theorem deliver (h : Inv x d) (hfresh : ∀ e ∈ d.delivered, e.index ≠ index)
    (hstep : d.deliver x op index = some d') : Inv x d' := by
  unfold Desk.deliver at hstep
  split at hstep
  · split at hstep
    · cases hstep
    · rename_i state answer hexec
      rw [← Option.some.inj hstep]
      have hkeep : ∀ t i a, Has x d.delivered t i a →
          Has x (⟨d.state, op, index⟩ :: d.delivered) t i a := by
        rintro t i a ⟨op', hident, e, he, hcomputed⟩
        exact ⟨op', hident, e, List.mem_cons_of_mem _ he, hcomputed⟩
      refine (Waiters.Inv.mono h ?_ hkeep).update_applier
        ⟨op, rfl, ⟨d.state, op, index⟩, List.mem_cons_self, rfl, rfl, state, hexec⟩
      -- what stands in the table was given at another index
      rintro t i a ⟨_, hhas⟩
      refine ⟨fun heq ↦ ?_, hkeep t i a hhas⟩
      obtain ⟨_, _, e, he, _, hindex, _⟩ := hhas
      apply hfresh e he
      rw [hindex]
      exact (Option.some.inj heq).symm
  · cases hstep

theorem install (h : Inv x d) {state : S} (hstep : d.install state = some d') : Inv x d' := by
  unfold Desk.install at hstep
  split at hstep
  · rw [← Option.some.inj hstep]
    exact h
  · cases hstep

theorem step (d : Desk S R O A K) (a : DeskAction S R O) (d' : Desk S R O A K) (h : Inv x d)
    (hfresh : d.Fresh a) (hstep : d.step x a = some d') : Inv x d' := by
  cases a with
  | dealRequest r =>
      rw [← Option.some.inj hstep]
      exact moved (Waiters.Inv.enter h r) rfl
  | start k index isLeader =>
      obtain ⟨⟨w, r⟩, hw, rfl⟩ := Option.map_eq_some_iff.mp hstep
      exact moved (Waiters.Inv.start h hw) (Waiters.start_moves hw).1.applier
  | getWaitChan k =>
      obtain ⟨w, hw, rfl⟩ := Option.map_eq_some_iff.mp hstep
      exact moved (Waiters.Inv.handlerChan h hw) (Waiters.handlerChan_moves hw).applier
  | receive k =>
      obtain ⟨⟨w, r, answer⟩, hw, rfl⟩ := Option.map_eq_some_iff.mp hstep
      exact moved (Waiters.Inv.receive h hw).1 (Waiters.receive_moves hw).1.applier
  | timeout k =>
      obtain ⟨⟨w, r⟩, hw, rfl⟩ := Option.map_eq_some_iff.mp hstep
      exact moved (Waiters.Inv.timeout h hw) (Waiters.timeout_moves hw).1.applier
  | deleteWaitChan k =>
      obtain ⟨w, hw, rfl⟩ := Option.map_eq_some_iff.mp hstep
      exact moved (Waiters.Inv.deleteWaitChan h hw) (Waiters.deleteWaitChan_moves hw).applier
  | deliver op index => exact deliver h hfresh hstep
  | getState isLeader =>
      obtain ⟨w, hw, rfl⟩ := Option.map_eq_some_iff.mp hstep
      exact moved_applier (Waiters.Inv.getState h hw) (Waiters.getState_moves hw)
  | applierChan =>
      obtain ⟨w, hw, rfl⟩ := Option.map_eq_some_iff.mp hstep
      exact moved_applier (Waiters.Inv.applierChan h hw) (Waiters.applierChan_moves hw)
  | send =>
      obtain ⟨w, hw, rfl⟩ := Option.map_eq_some_iff.mp hstep
      -- from here on the applier is done with the index, so its own answer may stand there
      have hdone := Waiters.Inv.mono h (fun _ _ _ ↦ Good.done) fun _ _ _ ↦ id
      apply moved_done (hdone.send (fun _ _ _ ↦ Has.good) hw)
      rw [(Waiters.send_moves hw).2]
      rfl
  | next =>
      obtain ⟨w, hw, rfl⟩ := Option.map_eq_some_iff.mp hstep
      apply moved_done (Waiters.Inv.next h hw)
      rw [(Waiters.next_eq hw).2]
      rfl
  | install state => exact install h hstep
  | restart state => exact Option.some.inj hstep ▸ boot state

/-- What stands in a handler's channel was computed for its own call, at its own index. -/
theorem received (h : Inv x d) {k : Nat} {r : R} (hreceived : d.received k = some (r, index, answer)) :
    ∃ op, x.ident op = x.caller r ∧ Computed x d.delivered op index answer := by
  unfold Waiters.received at hreceived
  split at hreceived
  · rename_i r' index' c hk
    rw [Option.map_eq_some_iff] at hreceived
    obtain ⟨⟨table, answer'⟩, hreceive, heq⟩ := hreceived
    cases heq
    exact (Waiters.Inv.good_of_receive h hk hreceive).2
  · cases hreceived

/-- Nothing stands in the channel that the applier is about to send to. -/
theorem slot_free (h : Inv x d) {c : Nat} (happlier : d.applier = .sending op index answer c) :
    ∃ table, d.table.send c answer = some table := by
  have hok := h.applier
  rw [happlier] at hok
  obtain ⟨⟨key, slot⟩, hch, hkey⟩ := hok.2
  cases slot with
  | none =>
      unfold WaitTable.send
      rw [hch]
      exact ⟨_, rfl⟩
  | some b =>
      obtain ⟨t, index', hkey', hbusy, _⟩ := h.table.right _ (List.mem_of_getElem? hch) b rfl
      rw [happlier] at hbusy
      -- the key of the channel has the applier's own index
      have hindex := (x.key_injective (hkey.symm.trans hkey')).2
      exact absurd (congrArg some hindex) hbusy

end Inv

/-- What the desk is for: a handler receives an answer to its own call that was computed at its own
index, and the applier never has to wait for a slot. -/
structure Orderly (x : Exchange S R O A T K) (d : Desk S R O A K) : Prop where
  received : ∀ k r index answer, d.received k = some (r, index, answer) →
    ∃ op, x.ident op = x.caller r ∧ Computed x d.delivered op index answer
  slot_free : ∀ op index answer c, d.applier = .sending op index answer c →
    ∃ table, d.table.send c answer = some table

/-- However the goroutines take turns, if no index is given twice. -/
theorem orderly_of_run {state : S} {as : List (DeskAction S R O)}
    (hfresh : Along (step x) Fresh { state := state } as)
    (hrun : run (step x) { state := state } as = some d) : Orderly x d := by
  have h := run_invariant Inv.step (Inv.boot state) hfresh hrun
  exact ⟨fun _ _ _ _ ↦ h.received, fun _ _ _ _ ↦ h.slot_free⟩

end Invariant

end Desk

end Lab6824.Lib
