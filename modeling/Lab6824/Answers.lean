import Lab6824.KvRaft.Server
import Lab6824.Lib.Desk
import Lab6824.ShardCtrler.Server

/-!
# Answers — how the two servers hand out answers

`DealRequest`, `getWaitChan` and `deleteWaitChan` are the same functions in `kvraft/server.go` and in
`shardctrler/server.go`, and so is what `fetchApply` does once it has executed an operation.  Both
servers are exchanges of `Lib.Desk`; they differ in what it means to execute an operation.
-/

namespace Lab6824

namespace KvRaft

/-- `DealRequest` and `fetchApply` of the key/value server. -/
def exchange : Lib.Exchange KVServer Op Op Answer (Int × Int) String where
  exec kv op := some (kv.applyCommand op)
  caller := Op.ident
  ident := Op.ident
  key := waitKey
  key_injective := waitKey_injective

end KvRaft

namespace ShardCtrler

/-- The key of `sc.waitChan`. -/
def waitKey (call : Int × Int) (index : Int) : String :=
  Lib.commaKey call.1 call.2 index

/-- `DealRequest` and `fetchApply` of the shard controller. -/
def exchange : Lib.Exchange Server Request Applied Answer (Int × Int) String where
  exec := Server.fetchApply
  caller := Request.ident
  ident a := a.request.ident
  key := waitKey
  key_injective := Lib.commaKey_injective2

end ShardCtrler

open Lib (Desk Along run)

/-- However the calls of `DealRequest` and the applier take turns, on either server: what a call
receives was computed by applying an operation of the same client and request id at the index that
`Start` returned to the call, and the applier finds the slot of its channel free. -/
theorem answers_reach_their_waiters :
    (∀ (kv : KvRaft.KVServer) as d,
        Along (Desk.step KvRaft.exchange) Desk.Fresh { state := kv } as →
        run (Desk.step KvRaft.exchange) { state := kv } as = some d →
        Desk.Orderly KvRaft.exchange d) ∧
      ∀ (s : ShardCtrler.Server) as d,
        Along (Desk.step ShardCtrler.exchange) Desk.Fresh { state := s } as →
        run (Desk.step ShardCtrler.exchange) { state := s } as = some d →
        Desk.Orderly ShardCtrler.exchange d :=
  ⟨fun _ _ _ ↦ Desk.orderly_of_run, fun _ _ _ ↦ Desk.orderly_of_run⟩

/-- A request waits at index `1`, where the operation of another client is committed, and then twice
at index `2`, where its own is. -/
def twiceWaiting {S R O : Type} (r : R) (other own : O) : List (Lib.DeskAction S R O) :=
  [.dealRequest r, .start 0 1 true, .deliver other 1, .getState true, .applierChan, .send, .next,
    .getWaitChan 0, .dealRequest r, .start 1 2 true, .dealRequest r, .start 2 2 true, .getWaitChan 1,
    .deliver own 2, .getState true, .applierChan, .send, .getWaitChan 2]

def putOp (uid : Int) : KvRaft.Op := { key := "x", op := .put, requestId := 1, uId := uid }

def joinRequest (uid : Int) : ShardCtrler.Applied where
  request := { op := ShardCtrler.joinOne uid, requestId := 1, uId := uid }
  ords := fun _ ↦ Lib.RangeOrder.increasing

/-- The first call has nothing to receive, the second and the third have the answer. -/
theorem second_waiter_is_answered :
    (∃ d, run (Desk.step KvRaft.exchange) { state := {} }
          (twiceWaiting (putOp 7) (putOp 8) (putOp 7)) = some d ∧
        (List.range 3).map (fun k ↦ (d.received k).isSome) = [false, true, true] ∧
        Desk.Orderly KvRaft.exchange d) ∧
      ∃ d, run (Desk.step ShardCtrler.exchange) { state := {} }
          (twiceWaiting (joinRequest 7).request (joinRequest 8) (joinRequest 7)) = some d ∧
        (List.range 3).map (fun k ↦ (d.received k).isSome) = [false, true, true] ∧
        Desk.Orderly ShardCtrler.exchange d := by
  obtain ⟨hkv, hsc⟩ := answers_reach_their_waiters
  constructor
  · have hcheck : (run (Desk.step KvRaft.exchange) { state := {} }
        (twiceWaiting (putOp 7) (putOp 8) (putOp 7))).any
        (fun d ↦ (List.range 3).map (fun k ↦ (d.received k).isSome) = [false, true, true]) =
        true := by
      decide +kernel
    obtain ⟨d, hrun, htest⟩ := Lib.exists_run_of_any hcheck
    exact ⟨d, hrun, of_decide_eq_true htest, hkv _ _ d (by decide +kernel) hrun⟩
  · have hcheck : (run (Desk.step ShardCtrler.exchange) { state := {} }
        (twiceWaiting (joinRequest 7).request (joinRequest 8) (joinRequest 7))).any
        (fun d ↦ (List.range 3).map (fun k ↦ (d.received k).isSome) = [false, true, true]) =
        true := by
      decide +kernel
    obtain ⟨d, hrun, htest⟩ := Lib.exists_run_of_any hcheck
    exact ⟨d, hrun, of_decide_eq_true htest, hsc _ _ d (by decide +kernel) hrun⟩

end Lab6824
