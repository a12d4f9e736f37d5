import Mathlib.Data.List.Basic
import Mathlib.Data.List.Range

/-!
# Linearizable — histories of concurrent calls and their sequential explanations

A `Model` is a sequential object as checkers take it: `step` tells whether an operation may
return the given output in the given state, and `partition` splits the operations into classes that
do not influence one another.  A history lists calls and returns in the order in which they happen.
It is linearizable if some of its calls, among them all that have returned, can be put into one order
that the object allows and that does not contradict the order of time.

`linearizable_of_log` is the rule for objects that are replicated by a log: each position of the log
lets at most one call take effect.
-/

namespace Lab6824.Lib

structure Model (I O K S : Type*) where
  partition : I → K
  init : S
  step : S → I → O → Bool × S

inductive Event (ι I O : Type*) where
  | call (c : ι) (input : I)
  | ret (c : ι) (output : O)
  deriving DecidableEq

structure Operation (ι I O : Type*) where
  call : ι
  input : I
  output : O

variable {ι I O K S : Type*}

namespace Model

/-- The object allows the operations one after the other. -/
def Legal (M : Model I O K S) : S → List (Operation ι I O) → Prop
  | _, [] => True
  | s, op :: ops =>
    (M.step s op.input op.output).1 = true ∧ M.Legal (M.step s op.input op.output).2 ops

/-- The state after the operations. -/
def after (M : Model I O K S) (s : S) (ops : List (Operation ι I O)) : S :=
  ops.foldl (fun s op ↦ (M.step s op.input op.output).2) s

theorem legal_append (M : Model I O K S) (s : S) (ops ops' : List (Operation ι I O)) :
    M.Legal s (ops ++ ops') ↔ M.Legal s ops ∧ M.Legal (M.after s ops) ops' := by
  induction ops generalizing s with
  | nil => exact (and_iff_right trivial).symm
  | cons op ops ih =>
      change _ ∧ M.Legal _ (ops ++ ops') ↔ (_ ∧ M.Legal _ ops) ∧ _
      rw [ih, and_assoc]
      exact Iff.rfl

end Model

/-- The call `b` has returned before the call `a` is made. -/
def Precedes (h : List (Event ι I O)) (b a : ι) : Prop :=
  ∃ output input, [Event.ret b output, Event.call a input].Sublist h

/-- The operations `ops`, in this order, explain the history `h`. -/
structure Linearization [DecidableEq K] (M : Model I O K S) (h : List (Event ι I O))
    (ops : List (Operation ι I O)) : Prop where
  /-- A call takes effect once. -/
  nodup : (ops.map Operation.call).Nodup
  /-- Only what was called takes effect. -/
  called : ∀ op ∈ ops, Event.call op.call op.input ∈ h
  /-- Every completed call takes effect, with the output that it returned. -/
  returned : ∀ c output, Event.ret c output ∈ h → ∃ op ∈ ops, op.call = c ∧ op.output = output
  /-- A call that returned before another was made takes effect before it. -/
  realTime : ops.Pairwise fun a b ↦ ¬ Precedes h b.call a.call
  legal : ∀ k, M.Legal M.init (ops.filter fun op ↦ M.partition op.input = k)

def Linearizable [DecidableEq K] (M : Model I O K S) (h : List (Event ι I O)) : Prop :=
  ∃ ops, Linearization M h ops

/-! ## Objects replicated by a log -/

/-- The history `h`, whose events carry the length that the log had when they happened, is explained
by the log: at each position below `N` the operation `effect p`, if any, takes effect. -/
structure LogEffects (M : Model I O K S) (h : List (Nat × Event ι I O)) (N : Nat)
    (effect : Nat → Option (Operation ι I O)) (state : Nat → K → S) : Prop where
  sorted : h.Pairwise fun a b ↦ a.1 ≤ b.1
  once : ∀ p q a b, effect p = some a → effect q = some b → a.call = b.call → p = q
  called : ∀ p a, effect p = some a → Event.call a.call a.input ∈ h.map Prod.snd
  /-- The log had not reached the position when the call was made. -/
  late : ∀ p a t input, effect p = some a → (t, Event.call a.call input) ∈ h → t ≤ p
  /-- The log had passed the position when the call returned. -/
  returned : ∀ t c output, (t, Event.ret c output) ∈ h →
    ∃ p a, p < t ∧ p < N ∧ effect p = some a ∧ a.call = c ∧ a.output = output
  start : ∀ k, state 0 k = M.init
  idle : ∀ p, effect p = none → state (p + 1) = state p
  other : ∀ p a k, effect p = some a → M.partition a.input ≠ k → state (p + 1) k = state p k
  allowed : ∀ p a, effect p = some a →
    M.step (state p (M.partition a.input)) a.input a.output =
      (true, state (p + 1) (M.partition a.input))

namespace LogEffects

variable {M : Model I O K S} {h : List (Nat × Event ι I O)} {N : Nat}
  {effect : Nat → Option (Operation ι I O)} {state : Nat → K → S}

/-- The operations in the order of their positions. -/
theorem mem_ops {a : Operation ι I O} :
    a ∈ (List.range N).filterMap effect ↔ ∃ p < N, effect p = some a := by
  rw [List.mem_filterMap]
  exact exists_congr fun p ↦ and_congr_left fun _ ↦ List.mem_range

theorem pairwise_ops (N : Nat) (effect : Nat → Option (Operation ι I O)) :
    ((List.range N).filterMap effect).Pairwise fun a b ↦
      ∃ p q, p < q ∧ effect p = some a ∧ effect q = some b := by
  rw [List.pairwise_filterMap]
  refine List.pairwise_lt_range.imp fun hpq a ha b hb ↦ ⟨_, _, hpq, ha, hb⟩

/-- Where `b` has returned before `a` was made, it stands earlier in the log. -/
theorem lt_of_precedes (hlog : LogEffects M h N effect state) {p q : Nat} {a b : Operation ι I O}
    (ha : effect p = some a) (hb : effect q = some b)
    (hprec : Precedes (h.map Prod.snd) b.call a.call) : q < p := by
  obtain ⟨output, input, hsub⟩ := hprec
  obtain ⟨events, hevents, hmap⟩ := List.sublist_map_iff.mp hsub
  match events, hmap with
  | [⟨tb, _⟩, ⟨ta, _⟩], rfl =>
    have hle : tb ≤ ta := by
      have hpair := hlog.sorted.sublist hevents
      exact (List.pairwise_cons.mp hpair).1 _ (List.mem_singleton.mpr rfl)
    obtain ⟨q', b', hq', _, hb', hcall, _⟩ := hlog.returned tb b.call output
      (hevents.subset List.mem_cons_self)
    have hlate := hlog.late p a ta input ha (hevents.subset (by simp))
    have hqq := hlog.once q' q b' b hb' hb hcall
    omega

theorem legal_take (hlog : LogEffects M h N effect state) [DecidableEq K] (k : K) (n : Nat) :
    M.Legal M.init (((List.range n).filterMap effect).filter fun op ↦ M.partition op.input = k) ∧
      M.after M.init (((List.range n).filterMap effect).filter fun op ↦ M.partition op.input = k) =
        state n k := by
  induction n with
  | zero => exact ⟨trivial, (hlog.start k).symm⟩
  | succ n ih =>
      rw [List.range_succ, List.filterMap_append, List.filter_append, M.legal_append]
      unfold Model.after at ih ⊢
      rw [List.foldl_append, ih.2]
      cases heffect : effect n with
      | none =>
          rw [List.filterMap_cons_none heffect, hlog.idle n heffect]
          exact ⟨⟨ih.1, trivial⟩, rfl⟩
      | some a =>
          rw [List.filterMap_cons_some heffect, List.filterMap_nil]
          by_cases hk : M.partition a.input = k
          · have hstep := hlog.allowed n a heffect
            rw [hk] at hstep
            rw [List.filter_cons_of_pos (by simpa using hk), List.filter_nil]
            refine ⟨⟨ih.1, ?_, trivial⟩, ?_⟩
            · rw [hstep]
            · rw [List.foldl_cons, List.foldl_nil, hstep]
          · rw [List.filter_cons_of_neg (by simpa using hk), hlog.other n a k heffect hk]
            exact ⟨⟨ih.1, trivial⟩, rfl⟩

theorem linearization (hlog : LogEffects M h N effect state) [DecidableEq K] :
    Linearization M (h.map Prod.snd) ((List.range N).filterMap effect) where
  nodup := by
    rw [List.Nodup, List.pairwise_map]
    refine (pairwise_ops N effect).imp ?_
    rintro a b ⟨p, q, hpq, ha, hb⟩ hcall
    exact hpq.ne (hlog.once p q a b ha hb hcall)
  called := by
    intro a ha
    obtain ⟨p, _, hp⟩ := mem_ops.mp ha
    exact hlog.called p a hp
  returned := by
    intro c output hret
    obtain ⟨⟨t, e⟩, hmem, rfl⟩ := List.mem_map.mp hret
    obtain ⟨p, a, _, hN, ha, hcall, hout⟩ := hlog.returned t c output hmem
    exact ⟨a, mem_ops.mpr ⟨p, hN, ha⟩, hcall, hout⟩
  realTime := by
    refine (pairwise_ops N effect).imp ?_
    rintro a b ⟨p, q, hpq, ha, hb⟩ hprec
    exact lt_asymm hpq (hlog.lt_of_precedes ha hb hprec)
  legal := fun k ↦ (hlog.legal_take k N).1

end LogEffects

theorem linearizable_of_log [DecidableEq K] {M : Model I O K S} {h : List (Nat × Event ι I O)}
    {N : Nat} {effect : Nat → Option (Operation ι I O)} {state : Nat → K → S}
    (hlog : LogEffects M h N effect state) : Linearizable M (h.map Prod.snd) :=
  ⟨_, hlog.linearization⟩

end Lab6824.Lib
