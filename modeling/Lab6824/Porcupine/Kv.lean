import Lab6824.KvRaft.Cluster
import Lab6824.Porcupine.Operations
import Mathlib.Data.String.Basic

/-!
# Kv — the check of histories of a key/value store

`models.KvModel` describes the value of a single key and splits a history into the operations on each
key.  That this decides whether the history is one of a whole store is the locality of linearizability.
-/

namespace Lab6824.Porcupine

open KvRaft (KvInput KvOutput)
open Lib (RangeOrder)

/-- The values that the model finds in operations. -/
inductive KvValue where
  | input (inp : KvInput)
  | output (out : KvOutput)
  deriving DecidableEq

/-- The assertion `.(KvInput)`. -/
def KvValue.asInput : KvValue → Option KvInput
  | .input inp => some inp
  | .output _ => none

/-- The assertion `.(KvOutput)`. -/
def KvValue.asOutput : KvValue → Option KvOutput
  | .input _ => none
  | .output out => some out

/-- The first loop of `Partition`. -/
def partitionMap (history : List (Operation KvValue)) :
    Option (Finmap fun _ : String ↦ List (Operation KvValue)) :=
  history.foldlM
    (fun m v ↦ v.input.asInput.map fun inp ↦ m.insert inp.key (Lib.index m inp.key ++ [v])) ∅

/-- The order of `sort.Strings`. -/
def stringLess (a b : String) : Bool :=
  a < b

section Model

variable (ord : RangeOrder String) (strings : Lib.Sorter stringLess)

def kvPartition (history : List (Operation KvValue)) : Option (List (List (Operation KvValue))) :=
  (partitionMap history).map fun m ↦ (strings.sort (ord.visit m.keys)).map (Lib.index m)

/-- `models.KvModel`; the two arguments are what the language leaves open in `Partition`. -/
def kvModel : Model KvValue String where
  partition := some (kvPartition ord strings)
  partitionEvent := none
  init := ""
  step state input output :=
    match input.asInput, output.asOutput with
    | some inp, some out => some (KvRaft.kvModel.step state inp out)
    | _, _ => none
  equal := none

end Model

/-! ## The partition -/

/-- The operation has an input and an output of the right types. -/
def KvTyped (op : Operation KvValue) : Prop :=
  ∃ inp out, op.input = .input inp ∧ op.output = .output out

def kvKey (op : Operation KvValue) : String :=
  match op.input with
  | .input inp => inp.key
  | .output _ => ""

section Partition

variable {history : List (Operation KvValue)} {ord : RangeOrder String}
  {strings : Lib.Sorter stringLess}

/-- The map has the operations on each key, in their order. -/
theorem partitionMap_eq (htyped : ∀ op ∈ history, KvTyped op) :
    ∃ m, partitionMap history = some m ∧
      (∀ k, Lib.index m k = history.filter fun op ↦ kvKey op = k) ∧
      ∀ k, k ∈ m ↔ ∃ op ∈ history, kvKey op = k := by
  induction history using List.reverseRecOn with
  | nil => exact ⟨∅, rfl, fun k ↦ rfl, fun k ↦ by simpa using Finmap.notMem_empty⟩
  | append_singleton history v ih =>
      obtain ⟨m, hm, hindex, hmem⟩ := ih fun op hop ↦ htyped op (List.mem_append_left _ hop)
      obtain ⟨inp, out, hinp, _⟩ := htyped v (by simp)
      have hkey : kvKey v = inp.key := by rw [kvKey, hinp]
      refine ⟨m.insert inp.key (Lib.index m inp.key ++ [v]), ?_, fun k ↦ ?_, fun k ↦ ?_⟩
      · unfold partitionMap at hm ⊢
        rw [List.foldlM_append, hm]
        simp [hinp, KvValue.asInput]
      · rw [List.filter_append, ← hindex]
        by_cases hk : k = inp.key
        · subst hk
          rw [Lib.index_insert_self, List.filter_cons_of_pos (by simpa using hkey), List.filter_nil]
        · have hne : kvKey v ≠ k := fun heq ↦ hk (heq.symm.trans hkey)
          rw [Lib.index_insert_of_ne hk, List.filter_cons_of_neg (by simpa using hne),
            List.filter_nil, List.append_nil]
      · rw [Finmap.mem_insert, hmem]
        simp only [List.mem_append, List.mem_singleton, or_and_right, exists_or, exists_eq_left, hkey]
        rw [or_comm, eq_comm]

theorem kvPartition_eq (ord : RangeOrder String) (strings : Lib.Sorter stringLess)
    (htyped : ∀ op ∈ history, KvTyped op) :
    ∃ partitions, kvPartition ord strings history = some partitions ∧
      ∀ sub, sub ∈ partitions ↔
        ∃ op ∈ history, sub = history.filter fun other ↦ kvKey other = kvKey op := by
  obtain ⟨m, hm, hindex, hmem⟩ := partitionMap_eq htyped
  refine ⟨_, by rw [kvPartition, hm]; rfl, fun sub ↦ ?_⟩
  simp only [List.mem_map, (strings.perm _).mem_iff, ord.mem_visit, Finmap.mem_keys, hmem, hindex]
  constructor
  · rintro ⟨_, ⟨op, hop, rfl⟩, rfl⟩
    exact ⟨op, hop, rfl⟩
  · rintro ⟨op, hop, rfl⟩
    exact ⟨_, ⟨op, hop, rfl⟩, rfl⟩

/-- The operations on each key, in the order of the keys. -/
theorem kvPartition_of_keys (htyped : ∀ op ∈ history, KvTyped op) {keys : List String}
    (hnodup : keys.Nodup) (hsorted : keys.Pairwise fun a b ↦ stringLess b a = false)
    (hkeys : ∀ k, k ∈ keys ↔ ∃ op ∈ history, kvKey op = k) :
    kvPartition ord strings history =
      some (keys.map fun k ↦ history.filter fun op ↦ kvKey op = k) := by
  obtain ⟨m, hm, hindex, hmem⟩ := partitionMap_eq htyped
  have hvisit : (ord.visit m.keys).Perm keys := by
    rw [List.perm_ext_iff_of_nodup (ord.nodup _) hnodup]
    intro k
    rw [ord.mem_visit, Finmap.mem_keys, hmem, hkeys]
  have hsort : strings.sort (ord.visit m.keys) = keys := by
    refine List.Perm.eq_of_pairwise ?_ (strings.sorted _) hsorted ((strings.perm _).trans hvisit)
    intro a b _ _ hab hba
    simp only [stringLess, decide_eq_false_iff_not, not_lt] at hab hba
    exact le_antisymm hab hba
  rw [kvPartition, hm, Option.map_some, hsort]
  congr 1
  exact List.map_congr_left fun k _ ↦ hindex k

end Partition

/-! ## The whole store -/

/-- What a store with a value for each key allows; the values are empty at first. -/
def storeNext (s : String → String) (op : Operation KvValue) : Option (String → String) :=
  match op.input, op.output with
  | .input inp, .output out =>
    if inp.op = 0 then
      if out.value = s inp.key then some s else none
    else if inp.op = 1 then some (Function.update s inp.key inp.value)
    else some (Function.update s inp.key (s inp.key ++ inp.value))
  | _, _ => none

/-- The operations could have been those of clients of one store. -/
def StoreLinearizable (history : List (Operation KvValue)) : Prop :=
  ∃ order, Lib.Explains Operation.call Operation.ret storeNext (fun _ ↦ "") history order

section Store

variable {history : List (Operation KvValue)} {ord : RangeOrder String}
  {strings : Lib.Sorter stringLess}

/-- A store is one register for each key. -/
theorem storeNext_eq (ord : RangeOrder String) (strings : Lib.Sorter stringLess) :
    storeNext = Lib.byKey kvKey (operationNext (fillDefault (kvModel ord strings))) := by
  funext s op
  cases hinput : op.input with
  | output out => simp [storeNext, Lib.byKey, operationNext, FullModel.next, fillDefault, kvModel, hinput,
      KvValue.asInput]
  | input inp =>
      cases houtput : op.output with
      | input inp' => simp [storeNext, Lib.byKey, operationNext, FullModel.next, fillDefault, kvModel, hinput,
          houtput, KvValue.asInput, KvValue.asOutput]
      | output out =>
          have hkey : kvKey op = inp.key := by rw [kvKey, hinput]
          simp only [storeNext, Lib.byKey, operationNext, FullModel.next, fillDefault, kvModel, hinput, houtput,
            KvValue.asInput, KvValue.asOutput, KvRaft.kvModel, hkey]
          by_cases hget : inp.op = 0
          · by_cases hvalue : out.value = s inp.key
            · simp [hget, hvalue]
            · simp [hget, hvalue]
          · by_cases hput : inp.op = 1
            · simp [hput]
            · simp [hget, hput]

theorem kvModel_applies {op : Operation KvValue} (h : KvTyped op) (s : String) :
    (fillDefault (kvModel ord strings)).step s op.input op.output ≠ none := by
  obtain ⟨inp, out, hinp, hout⟩ := h
  rw [hinp, hout]
  exact Option.some_ne_none _

/-- The whole history is linearizable if its operations on each key are. -/
theorem storeLinearizable_iff (ord : RangeOrder String) (strings : Lib.Sorter stringLess)
    (htime : ∀ op ∈ history, op.call ≤ op.ret) :
    StoreLinearizable history ↔ ∀ k, OperationsLinearizable (fillDefault (kvModel ord strings))
      (history.filter fun op ↦ kvKey op = k) := by
  rw [StoreLinearizable, storeNext_eq ord strings, Lib.exists_explains_iff htime]
  rfl

theorem operationsLinearizable_nil {V S : Type} (model : FullModel V S) :
    OperationsLinearizable model [] :=
  ⟨[], List.Perm.nil, List.Pairwise.nil, model.init, rfl⟩

theorem OperationsCheck.kv_partitions {byTime : Lib.Sorter (Entry.less (V := KvValue))}
    {verbose : Bool} {timeout : Int} (htyped : ∀ op ∈ history, KvTyped op)
    (check : OperationsCheck byTime (kvModel ord strings) history verbose timeout)
    (sub : List (Operation KvValue)) : sub ∈ check.partitions ↔
      ∃ op ∈ history, sub = history.filter fun other ↦ kvKey other = kvKey op := by
  obtain ⟨partitions, hpart, hmem⟩ := kvPartition_eq ord strings htyped
  have heq : check.partitions = partitions :=
    Option.some.inj (check.partitioned.symm.trans hpart)
  rw [heq, hmem]

section Check

variable {byTime : Lib.Sorter (Entry.less (V := KvValue))} {verbose : Bool} {timeout : Int}
  (htyped : ∀ op ∈ history, KvTyped op) (htime : ∀ op ∈ history, op.call ≤ op.ret)
  (check : OperationsCheck byTime (kvModel ord strings) history verbose timeout)

include htyped

theorem OperationsCheck.kv_partitions_eq_nil : check.partitions = [] ↔ history = [] := by
  simp only [List.eq_nil_iff_forall_not_mem, check.kv_partitions htyped]
  constructor
  · exact fun hnone op hop ↦ hnone _ ⟨op, hop, rfl⟩
  · rintro hnone sub ⟨op, hop, _⟩
    exact hnone op hop

include htime

theorem OperationsCheck.kv_sound :
    check.Sound (OperationsLinearizable (fillDefault (kvModel ord strings))) := by
  apply OperationsCheck.sound (equalStates_of_shallowEqual rfl)
  intro sub hsub
  obtain ⟨op, _, rfl⟩ := (check.kv_partitions htyped sub).mp hsub
  constructor
  · exact fun op' hop' ↦ htime op' (List.mem_filter.mp hop').1
  · exact fun op' hop' ↦ kvModel_applies (htyped op' (List.mem_filter.mp hop').1)

/-- The partitions are linearizable if and only if the whole history is. -/
theorem OperationsCheck.kv_linearizable :
    (∀ sub ∈ check.partitions, OperationsLinearizable (fillDefault (kvModel ord strings)) sub) ↔
      StoreLinearizable history := by
  have hmem := check.kv_partitions htyped
  rw [storeLinearizable_iff ord strings htime]
  constructor
  · intro hall k
    by_cases hk : ∃ op ∈ history, kvKey op = k
    · obtain ⟨op, hop, rfl⟩ := hk
      exact hall _ ((hmem _).mpr ⟨op, hop, rfl⟩)
    · -- there is no partition for this key
      have hnil : history.filter (fun op ↦ kvKey op = k) = [] := by
        apply List.filter_eq_nil_iff.mpr
        intro op hop hkey
        exact hk ⟨op, hop, of_decide_eq_true hkey⟩
      rw [hnil]
      exact operationsLinearizable_nil _
  · intro hall sub hsub
    obtain ⟨op, _, rfl⟩ := (hmem sub).mp hsub
    exact hall _

/-- The check of a history against `models.KvModel` returns, if it has anything to check, and says
whether the operations could be those on one store; only a timer lets it remain undecided. -/
theorem checkOperations_kvModel :
    check.actions.length ≤ Pool.steps (check.partitions.map (makeEntries byTime)) ∧
      (check.Stuck → ((∃ result, check.result = some result) ↔ history ≠ [] ∨ 0 < timeout)) ∧
      (check.result = some .ok → StoreLinearizable history) ∧
      (check.result = some .illegal → ¬ StoreLinearizable history) ∧
      (check.result = some .unknown → 0 < timeout) := by
  have hsound := check.kv_sound htyped htime
  refine ⟨hsound.bounded, fun hstuck ↦ ?_, fun hok ↦ ?_, fun hillegal ↦ ?_, hsound.unknown⟩
  · have hreturns := hsound.returns hstuck
    rwa [ne_eq, check.kv_partitions_eq_nil htyped] at hreturns
  · exact (check.kv_linearizable htyped htime).mp (hsound.ok hok)
  · rw [← check.kv_linearizable htyped htime]
    obtain ⟨sub, hsub, hnot⟩ := hsound.illegal hillegal
    exact fun hall ↦ hnot (hall sub hsub)

end Check

end Store

/-! ## Two clients and two keys -/

/-- One client writes `k` while the other one reads what is written; then it appends to `l` while the
other one finds `l` empty. -/
def twoKeys : List (Operation KvValue) :=
  [⟨0, .input { op := 1, key := "k", value := "v" }, 0, .output {}, 3⟩,
    ⟨1, .input { op := 0, key := "k" }, 1, .output { value := "v" }, 2⟩,
    ⟨0, .input { op := 2, key := "l", value := "w" }, 4, .output {}, 7⟩,
    ⟨1, .input { op := 0, key := "l" }, 5, .output {}, 6⟩]

theorem twoKeys_typed : ∀ op ∈ twoKeys, KvTyped op := by
  intro op hop
  simp only [twoKeys, List.mem_cons, List.not_mem_nil, or_false] at hop
  rcases hop with rfl | rfl | rfl | rfl
  · exact ⟨_, _, rfl, rfl⟩
  · exact ⟨_, _, rfl, rfl⟩
  · exact ⟨_, _, rfl, rfl⟩
  · exact ⟨_, _, rfl, rfl⟩

/-- The operations on `k` and those on `l`. -/
def twoKeysParts : List (List (Operation KvValue)) :=
  [twoKeys.take 2, twoKeys.drop 2]

theorem kvPartition_twoKeys {ord : RangeOrder String} {strings : Lib.Sorter stringLess} :
    kvPartition ord strings twoKeys = some twoKeysParts := by
  have hkeys : ∀ k, k ∈ ["k", "l"] ↔ ∃ op ∈ twoKeys, kvKey op = k := by
    intro k
    simp [twoKeys, kvKey, eq_comm]
  exact kvPartition_of_keys twoKeys_typed (by decide) (by decide) hkeys

theorem stringLess_asymm (a b : String) (h : stringLess a b = true) : stringLess b a = false := by
  simp only [stringLess, decide_eq_true_eq, decide_eq_false_iff_not] at h ⊢
  exact lt_asymm h

theorem stringLess_trans (a b c : String) (hba : stringLess b a = false)
    (hcb : stringLess c b = false) : stringLess c a = false := by
  simp only [stringLess, decide_eq_false_iff_not, not_lt] at hba hcb ⊢
  exact hba.trans hcb

def stableStrings : Lib.Sorter stringLess :=
  Lib.Sorter.insertion stringLess_asymm stringLess_trans

/-- The goroutines for the two keys take turns; the result for `k` is received before the one for `l`
is sent. -/
def twoKeysRun : List (PoolAction (twoKeysParts.map (makeEntries stableByTime)).length) :=
  (List.replicate 4 [.work ⟨0, Nat.two_pos⟩, .work ⟨1, Nat.one_lt_two⟩]).flatten ++
    [.work ⟨0, Nat.two_pos⟩, .receive] ++ List.replicate 4 (.work ⟨1, Nat.one_lt_two⟩) ++ [.receive]

theorem twoKeysRun_result (verbose : Bool) : ∃ p,
    Lib.run (Pool.step (fillDefault (kvModel (.arbitrary String) stableStrings))
        (twoKeysParts.map (makeEntries stableByTime)) verbose 0 fun _ ↦ .arbitrary Seq)
      (Pool.init (fillDefault (kvModel (.arbitrary String) stableStrings))
        (twoKeysParts.map (makeEntries stableByTime))) twoKeysRun = some p ∧
      p.main.result = some .ok ∧
      ∀ a, p.step (fillDefault (kvModel (.arbitrary String) stableStrings))
        (twoKeysParts.map (makeEntries stableByTime)) verbose 0 (fun _ ↦ .arbitrary Seq) a =
          none := by
  have hany : (Lib.run (Pool.step (fillDefault (kvModel (.arbitrary String) stableStrings))
      (twoKeysParts.map (makeEntries stableByTime)) verbose 0 fun _ ↦ .arbitrary Seq)
      (Pool.init (fillDefault (kvModel (.arbitrary String) stableStrings))
        (twoKeysParts.map (makeEntries stableByTime))) twoKeysRun).any
      (fun p ↦ p.main.result = some .ok ∧
        ∀ a, p.step (fillDefault (kvModel (.arbitrary String) stableStrings))
          (twoKeysParts.map (makeEntries stableByTime)) verbose 0 (fun _ ↦ .arbitrary Seq) a =
            none) = true := by
    cases verbose <;> rfl
  obtain ⟨p, hrun, hp⟩ := Lib.exists_run_of_any hany
  exact ⟨p, hrun, of_decide_eq_true hp⟩

theorem checkOperations_kvModel_twoKeys :
    ∃ check : OperationsCheck stableByTime (kvModel (.arbitrary String) stableStrings)
        twoKeys true 0,
      check.partitions = twoKeysParts ∧ check.result = some .ok ∧ StoreLinearizable twoKeys := by
  obtain ⟨p, hrun, hresult, _⟩ := twoKeysRun_result true
  let check : OperationsCheck stableByTime (kvModel (.arbitrary String) stableStrings)
      twoKeys true 0 :=
    ⟨_, kvPartition_twoKeys, fun _ ↦ .arbitrary Seq, twoKeysRun, p, hrun⟩
  exact ⟨check, rfl, hresult,
    (checkOperations_kvModel twoKeys_typed (by decide) check).2.2.1 hresult⟩

end Lab6824.Porcupine
