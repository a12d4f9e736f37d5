import Lab6824.KvRaft.Linearizable
import Lab6824.Porcupine.Kv

/-!
# Recorded — what clients of the cluster record passes the check

The clients of `kvraft/test_test.go` read the clock before and after each call of their clerk and
append an operation with both times to a log.  The log of any run in which all calls have returned is
linearizable, so that the check at the end of a test does not fail.
-/

namespace Lab6824.Porcupine

open KvRaft (KvInput KvOutput)
open Lib (RangeOrder)

section Recorded

variable {ι : Type}

/-- The log has one operation for each call of the history.  The event at position `p` of the history
happened at time `clock p`. -/
structure Recorded (history : List (Lib.Event ι KvInput KvOutput)) (clock : Nat → Int)
    (log : List (ι × Operation KvValue)) : Prop where
  monotone : ∀ p q, p ≤ q → clock p ≤ clock q
  nodup : (log.map Prod.fst).Nodup
  all : ∀ c inp, .call c inp ∈ history → c ∈ log.map Prod.fst
  /-- The first time was read before the call. -/
  called : ∀ c op, (c, op) ∈ log → ∃ p inp, history[p]? = some (.call c inp) ∧
    op.input = .input inp ∧ op.call ≤ clock p
  /-- The second time was read after the return. -/
  returned : ∀ c op, (c, op) ∈ log → ∃ p out, history[p]? = some (.ret c out) ∧
    op.output = .output out ∧ clock p ≤ op.ret

variable {history : List (Lib.Event ι KvInput KvOutput)} {clock : Nat → Int}
  {log : List (ι × Operation KvValue)} {ops : List (Lib.Operation ι KvInput KvOutput)}

/-- The operation of the log and the one of the linearization are the same. -/
def Same (entry : ι × Operation KvValue) (op : Lib.Operation ι KvInput KvOutput) : Prop :=
  entry.1 = op.call ∧ entry.2.input = .input op.input ∧ entry.2.output = .output op.output

namespace Recorded

theorem typed (h : Recorded history clock log) : ∀ op ∈ log.map Prod.snd, KvTyped op := by
  intro op hop
  obtain ⟨⟨c, _⟩, hmem, rfl⟩ := List.mem_map.mp hop
  obtain ⟨_, inp, _, hinp, _⟩ := h.called c _ hmem
  obtain ⟨_, out, _, hout, _⟩ := h.returned c _ hmem
  exact ⟨inp, out, hinp, hout⟩

/-- An operation that ends before another one starts has returned before the other is called. -/
theorem precedes (h : Recorded history clock log) {a b : ι × Operation KvValue} (ha : a ∈ log)
    (hb : b ∈ log) (hlt : b.2.ret < a.2.call) : Lib.Precedes history b.1 a.1 := by
  obtain ⟨p, inp, hp, _, hcall⟩ := h.called a.1 a.2 ha
  obtain ⟨q, out, hq, _, hret⟩ := h.returned b.1 b.2 hb
  have hpos : q < p := by
    by_contra hle
    have := h.monotone p q (not_lt.mp hle)
    omega
  exact ⟨out, inp, Lib.sublist_of_lt hq hp hpos⟩

/-- The log in the order of a linearization of the history. -/
theorem exists_order (h : Recorded history clock log)
    (honce : ∀ c inp inp', .call c inp ∈ history → .call c inp' ∈ history → inp = inp')
    (hlin : Lib.Linearization KvRaft.kvModel history ops) :
    ∃ order : List (ι × Operation KvValue), order.Perm log ∧ List.Forall₂ Same order ops := by
  have hperm : (ops.map Lib.Operation.call).Perm (log.map Prod.fst) := by
    rw [List.perm_ext_iff_of_nodup hlin.nodup h.nodup]
    intro c
    constructor
    · intro hc
      obtain ⟨op, hop, rfl⟩ := List.mem_map.mp hc
      exact h.all _ _ (hlin.called op hop)
    · intro hc
      obtain ⟨⟨_, op⟩, hmem, rfl⟩ := List.mem_map.mp hc
      obtain ⟨p, out, hp, _⟩ := h.returned _ op hmem
      obtain ⟨op', hop', hcall, _⟩ := hlin.returned _ _ (List.mem_of_getElem? hp)
      exact List.mem_map.mpr ⟨op', hop', hcall⟩
  have hcomp : Relation.Comp (· = List.map Prod.fst ·) List.Perm (ops.map Lib.Operation.call) log := by
    rw [List.eq_map_comp_perm]
    exact hperm
  obtain ⟨order, hcalls, horder⟩ := hcomp
  have hpaired : List.Forall₂ (fun e (op : Lib.Operation ι KvInput KvOutput) ↦ e.1 = op.call)
      order ops := by
    have heq : List.Forall₂ Eq (order.map Prod.fst) (ops.map Lib.Operation.call) := by
      rw [List.forall₂_eq_eq_eq]
      exact hcalls.symm
    exact List.forall₂_map_right_iff.mp (List.forall₂_map_left_iff.mp heq)
  refine ⟨order, horder, Lib.Forall₂.imp_of_mem hpaired fun e he op hop hcall ↦ ⟨hcall, ?_, ?_⟩⟩
  · obtain ⟨p, inp, hp, hinp, _⟩ := h.called e.1 e.2 (horder.mem_iff.mp he)
    rw [hinp, honce _ _ _ (List.mem_of_getElem? hp) (hcall ▸ hlin.called op hop)]
  · obtain ⟨p, out, hp, hout, _⟩ := h.returned e.1 e.2 (horder.mem_iff.mp he)
    obtain ⟨op', hop', hcall', rfl⟩ := hlin.returned _ _ (List.mem_of_getElem? hp)
    rw [hout, List.inj_on_of_nodup_map hlin.nodup hop' hop (hcall'.trans hcall)]

/-- The object allows on each key what the store allows. -/
theorem exists_run {ord : RangeOrder String} {strings : Lib.Sorter stringLess}
    {order : List (ι × Operation KvValue)} (h : List.Forall₂ Same order ops) (s : String → String)
    (hlegal : ∀ k, KvRaft.kvModel.Legal (s k) (ops.filter fun op ↦ op.input.key = k)) :
    ∃ t, Lib.run (Lib.byKey kvKey (operationNext (fillDefault (kvModel ord strings)))) s
      (order.map Prod.snd) = some t := by
  induction h generalizing s with
  | nil => exact ⟨s, rfl⟩
  | @cons e op order ops hsame _ ih =>
      obtain ⟨_, hinput, houtput⟩ := hsame
      have hkey : kvKey e.2 = op.input.key := by rw [kvKey, hinput]
      have hfirst := hlegal op.input.key
      rw [List.filter_cons_of_pos (by simp)] at hfirst
      obtain ⟨hallowed, hrest⟩ := hfirst
      have hnext : operationNext (fillDefault (kvModel ord strings)) (s op.input.key) e.2 =
          some (KvRaft.kvModel.step (s op.input.key) op.input op.output).2 := by
        have hstep : KvRaft.kvModel.step (s op.input.key) op.input op.output =
            (true, (KvRaft.kvModel.step (s op.input.key) op.input op.output).2) :=
          Prod.ext hallowed rfl
        simp only [operationNext, FullModel.next, fillDefault, kvModel, hinput, houtput, KvValue.asInput,
          KvValue.asOutput]
        rw [hstep]
      obtain ⟨t, ht⟩ := ih (Function.update s op.input.key
          (KvRaft.kvModel.step (s op.input.key) op.input op.output).2) fun k ↦ by
        by_cases hk : op.input.key = k
        · rw [← hk, Function.update_self]
          exact hrest
        · have hother := hlegal k
          rw [List.filter_cons_of_neg (by simpa using hk)] at hother
          rwa [Function.update_of_ne (Ne.symm hk)]
      refine ⟨t, ?_⟩
      rw [List.map_cons, Lib.run_cons]
      refine ⟨_, ?_, ht⟩
      rw [Lib.byKey, hkey, hnext]
      rfl

theorem storeLinearizable (h : Recorded history clock log)
    (honce : ∀ c inp inp', .call c inp ∈ history → .call c inp' ∈ history → inp = inp')
    (hlin : Lib.Linearization KvRaft.kvModel history ops) :
    StoreLinearizable (log.map Prod.snd) := by
  obtain ⟨order, hperm, hsame⟩ := h.exists_order honce hlin
  refine ⟨order.map Prod.snd, hperm.map _, ?_, ?_⟩
  · rw [List.pairwise_map]
    have hpairs : order.Pairwise fun a b ↦ ¬ Lib.Precedes history b.1 a.1 := by
      refine Lib.Forall₂.pairwise ?_ hsame.flip hlin.realTime
      intro a e b e' hae hbe hnot
      rwa [hae.1, hbe.1]
    refine hpairs.imp_of_mem fun ha hb hnot hlt ↦ hnot ?_
    exact h.precedes (hperm.mem_iff.mp ha) (hperm.mem_iff.mp hb) hlt
  · rw [storeNext_eq (.arbitrary String) stableStrings]
    exact exists_run hsame (fun _ ↦ "") hlin.legal

end Recorded

end Recorded

/-! ## The cluster -/

section Cluster

open KvRaft (Cluster ClusterAction ClusterInv CallsInv)

variable {n m : Nat} {σ : Type} {uids : Fin m → Int} {clerks : Fin m → KvRaft.Clerk n}
  {history : List KvRaft.Stamped} {committed : List KvRaft.Op} {clock : Nat → Int}
  {log : List ((Int × Int) × Operation KvValue)}

/-- A call returns after it is made. -/
theorem Recorded.call_le_ret (h : Recorded (history.map Prod.snd) clock log)
    (hcalls : CallsInv uids clerks history committed) :
    ∀ op ∈ log.map Prod.snd, op.call ≤ op.ret := by
  intro op hop
  obtain ⟨⟨c, _⟩, hmem, rfl⟩ := List.mem_map.mp hop
  obtain ⟨p, inp, hp, _, hcall⟩ := h.called c _ hmem
  obtain ⟨q, out, hq, _, hret⟩ := h.returned c _ hmem
  rw [List.getElem?_map, Option.map_eq_some_iff] at hp hq
  obtain ⟨⟨t, _⟩, hp, rfl⟩ := hp
  obtain ⟨⟨t', _⟩, hq, rfl⟩ := hq
  -- the operation that was answered is in the sequence between the call and the return
  obtain ⟨r, op', hr, hop', hident, _⟩ := hcalls.returned t' c out (List.mem_of_getElem? hq)
  have hlate := hcalls.late t c inp r op' (List.mem_of_getElem? hp) hop' hident
  have hle : p ≤ q := by
    by_contra hlt
    have hpair := hcalls.sorted.sublist (Lib.sublist_of_lt hq hp (not_le.mp hlt))
    have := (List.pairwise_cons.mp hpair).1 _ (List.mem_singleton.mpr rfl)
    omega
  exact hcall.trans ((h.monotone p q hle).trans hret)

/-- What the clients of the cluster have recorded in any run does not fail the check: if there is
something to check or a timer is set, it returns `Ok`, unless its timer fires first. -/
theorem kvraft_passes_check [NeZero n] {gob : Gob (KvRaft.RequestIds × KvRaft.Store) σ}
    (huids : Function.Injective uids) {as : List (ClusterAction n m)} {w : Cluster n m σ}
    (hrun : Lib.run (Cluster.step gob) (Cluster.init uids) as = some w)
    (hrec : Recorded (w.history.map Prod.snd) clock log) {ord : RangeOrder String}
    {strings : Lib.Sorter stringLess} {byTime : Lib.Sorter (Entry.less (V := KvValue))}
    {verbose : Bool} {timeout : Int}
    (check : OperationsCheck byTime (kvModel ord strings) (log.map Prod.snd) verbose timeout) :
    check.result ≠ some .illegal ∧
      (check.Stuck → log ≠ [] ∨ 0 < timeout →
        check.result = some .ok ∨ check.result = some .unknown ∧ 0 < timeout) := by
  have hcalls := (ClusterInv.run huids hrun).calls
  obtain ⟨point, hpoint⟩ := hcalls.exists_point
  have honce : ∀ c inp inp', .call c inp ∈ w.history.map Prod.snd →
      .call c inp' ∈ w.history.map Prod.snd → inp = inp' := by
    intro c inp inp' hinp hinp'
    obtain ⟨⟨t, _⟩, ht, rfl⟩ := List.mem_map.mp hinp
    obtain ⟨⟨t', _⟩, ht', rfl⟩ := List.mem_map.mp hinp'
    exact hcalls.callOnce t t' c inp inp' ht ht'
  have hlin := hrec.storeLinearizable honce (hcalls.logEffects hpoint).linearization
  have htime := hrec.call_le_ret hcalls
  have hsound := check.kv_sound hrec.typed htime
  have hlegal : check.result ≠ some .illegal := by
    intro hillegal
    obtain ⟨sub, hsub, hnot⟩ := hsound.illegal hillegal
    exact hnot ((check.kv_linearizable hrec.typed htime).mpr hlin sub hsub)
  refine ⟨hlegal, fun hstuck hor ↦ ?_⟩
  have hparts : check.partitions ≠ [] ∨ 0 < timeout := by
    rw [ne_eq, check.kv_partitions_eq_nil hrec.typed, List.map_eq_nil_iff]
    exact hor
  obtain ⟨result, hresult⟩ := (hsound.returns hstuck).mpr hparts
  cases result with
  | ok => exact Or.inl hresult
  | illegal => exact absurd hresult hlegal
  | unknown => exact Or.inr ⟨hresult, hsound.unknown hresult⟩

/-- Two clerks call at the same time, twice each, and server `0` serves them: a `Put` and a `Get` that
sees it, then an `Append` and a `Get` that comes before it. -/
def overlapCallsRun : List (ClusterAction 2 2) :=
  let s : Fin 2 := ⟨0, Nat.two_pos⟩
  let one : Fin 2 := ⟨0, Nat.two_pos⟩
  let two : Fin 2 := ⟨1, Nat.one_lt_two⟩
  let put : KvRaft.Method := .put "k" "v"
  let append : KvRaft.Method := .append "l" "w"
  [.call one put, .send one, .call two (.get "k"), .send two] ++
    KvRaft.serve s ⟨0, s, put.args 1 1⟩ 1 ++
    KvRaft.serve s ⟨1, s, (KvRaft.Method.get "k").args 2 1⟩ 2 ++
    [.reply two { err := .ok, value := "v" }, .reply one { err := .ok },
      .call one append, .send one, .call two (.get "l"), .send two] ++
    KvRaft.serve s ⟨3, s, (KvRaft.Method.get "l").args 2 2⟩ 3 ++
    KvRaft.serve s ⟨2, s, append.args 1 2⟩ 4 ++
    [.reply two { err := .errNoKey }, .reply one { err := .ok }]

/-- What the clients record when their clock counts the events. -/
def overlapCallsLog : List ((Int × Int) × Operation KvValue) :=
  [(1, 1), (2, 1), (1, 2), (2, 2)].zip twoKeys

def overlapCallsHistory : List (Lib.Event (Int × Int) KvInput KvOutput) :=
  [.call (1, 1) { op := 1, key := "k", value := "v" }, .call (2, 1) { op := 0, key := "k" },
    .ret (2, 1) { value := "v" }, .ret (1, 1) {},
    .call (1, 2) { op := 2, key := "l", value := "w" }, .call (2, 2) { op := 0, key := "l" },
    .ret (2, 2) {}, .ret (1, 2) {}]

theorem overlapCallsRun_history :
    ∃ w, Lib.run (Cluster.step (Gob.plain (KvRaft.RequestIds × KvRaft.Store)))
        (Cluster.init KvRaft.twoUids) overlapCallsRun = some w ∧
      w.history.map Prod.snd = overlapCallsHistory := by
  have hcheck : (Lib.run (Cluster.step (Gob.plain (KvRaft.RequestIds × KvRaft.Store)))
      (Cluster.init KvRaft.twoUids) overlapCallsRun).any
      (fun w ↦ decide (w.history.map Prod.snd = overlapCallsHistory)) = true := by
    decide +kernel
  obtain ⟨w, hrun, htest⟩ := Lib.exists_run_of_any hcheck
  exact ⟨w, hrun, of_decide_eq_true htest⟩

theorem overlapCallsLog_recorded : Recorded overlapCallsHistory Nat.cast overlapCallsLog where
  monotone p q h := Int.ofNat_le.mpr h
  nodup := by decide
  all c inp hcall := by
    simp only [overlapCallsHistory, List.mem_cons, List.not_mem_nil, or_false, reduceCtorEq,
      false_or, Lib.Event.call.injEq] at hcall
    rcases hcall with ⟨rfl, _⟩ | ⟨rfl, _⟩ | ⟨rfl, _⟩ | ⟨rfl, _⟩ <;> decide
  called c op hop := by
    simp only [overlapCallsLog, twoKeys, List.zip_cons_cons, List.zip_nil_right, List.mem_cons,
      List.not_mem_nil, or_false, Prod.mk.injEq] at hop
    rcases hop with ⟨rfl, rfl⟩ | ⟨rfl, rfl⟩ | ⟨rfl, rfl⟩ | ⟨rfl, rfl⟩
    · exact ⟨0, _, rfl, rfl, le_refl _⟩
    · exact ⟨1, _, rfl, rfl, le_refl _⟩
    · exact ⟨4, _, rfl, rfl, le_refl _⟩
    · exact ⟨5, _, rfl, rfl, le_refl _⟩
  returned c op hop := by
    simp only [overlapCallsLog, twoKeys, List.zip_cons_cons, List.zip_nil_right, List.mem_cons,
      List.not_mem_nil, or_false, Prod.mk.injEq] at hop
    rcases hop with ⟨rfl, rfl⟩ | ⟨rfl, rfl⟩ | ⟨rfl, rfl⟩ | ⟨rfl, rfl⟩
    · exact ⟨3, _, rfl, rfl, le_refl _⟩
    · exact ⟨2, _, rfl, rfl, le_refl _⟩
    · exact ⟨7, _, rfl, rfl, le_refl _⟩
    · exact ⟨6, _, rfl, rfl, le_refl _⟩

theorem kvraft_passes_check_overlapCallsRun :
    ∃ (w : Cluster 2 2 _) (check : OperationsCheck stableByTime
        (kvModel (.arbitrary String) stableStrings) (overlapCallsLog.map Prod.snd) false 0),
      Lib.run (Cluster.step (Gob.plain (KvRaft.RequestIds × KvRaft.Store)))
        (Cluster.init KvRaft.twoUids) overlapCallsRun = some w ∧
      Recorded (w.history.map Prod.snd) Nat.cast overlapCallsLog ∧
      check.Stuck ∧ check.result = some .ok := by
  obtain ⟨p, hpool, _, hstuck⟩ := twoKeysRun_result false
  obtain ⟨w, hrun, hhistory⟩ := overlapCallsRun_history
  have hrec : Recorded (w.history.map Prod.snd) Nat.cast overlapCallsLog :=
    hhistory ▸ overlapCallsLog_recorded
  let check : OperationsCheck stableByTime (kvModel (.arbitrary String) stableStrings)
      (overlapCallsLog.map Prod.snd) false 0 :=
    ⟨_, kvPartition_twoKeys, fun _ ↦ .arbitrary Seq, _, p, hpool⟩
  have hreturned := (kvraft_passes_check KvRaft.twoUids_injective hrun hrec check).2 hstuck
  -- without a timeout the result is not `Unknown`
  have hok := (hreturned (Or.inl (by decide))).resolve_right fun h ↦ absurd h.2 (lt_irrefl 0)
  exact ⟨w, check, hrun, hrec, hstuck, hok⟩

end Cluster

end Lab6824.Porcupine
