import Lab6824.Lib.Service
import Lab6824.Raft.State

/-!
# Server — the key/value server

The data of `kvraft/common.go` and `kvraft/server.go`, and what a `KVServer` computes: `Get` and
`PutAppend` up to `DealRequest`, the command branch of `fetchApply`, and its snapshots.  How the
goroutines of a server take turns is the same for every service that waits at channels, and stands in
`Lib.Service`.
-/

namespace Lab6824.KvRaft

/-- `GET`, `PUT` and `APPEND`. -/
inductive OpType where
  | get
  | put
  | append
  deriving DecidableEq, Repr

/-- The three values of `Err`. -/
inductive Err where
  | ok
  | errNoKey
  | errWrongLeader
  deriving DecidableEq, Repr

/-- An operation as it is handed to `Start`, where its field `Err` is still empty. -/
structure Op where
  key : String
  value : String := ""
  op : OpType
  requestId : Int
  uId : Int
  deriving DecidableEq, Repr

structure Answer where
  err : Err
  value : String := ""
  deriving DecidableEq, Repr

structure GetArgs where
  key : String
  requestId : Int
  uId : Int
  deriving DecidableEq, Repr

structure PutAppendArgs where
  key : String
  value : String
  op : OpType
  requestId : Int
  uId : Int
  deriving DecidableEq, Repr

/-- The two RPCs. -/
inductive Args where
  | get (args : GetArgs)
  | putAppend (args : PutAppendArgs)
  deriving DecidableEq, Repr

/-- `map[string]string` -/
abbrev Store := Finmap fun _ : String ↦ String

/-- `map[int64]int` -/
abbrev RequestIds := Finmap fun _ : Int ↦ Int

/-- The two maps that a server keeps, and saves. -/
structure KVServer where
  m : Store := ∅
  lastRequestId : RequestIds := ∅
  deriving DecidableEq

namespace KVServer

/-- `kv.lastRequestId[uid]`, which is `0` where the key is absent. -/
def lastRequest (kv : KVServer) (uid : Int) : Int :=
  (kv.lastRequestId.lookup uid).getD 0

/-- `kv.m[key]`, which is `""` where the key is absent. -/
def value (kv : KVServer) (key : String) : String :=
  (kv.m.lookup key).getD ""

/-! ## Applying an operation -/

/-- The `if` of `fetchApply` that executes the operation. -/
def execute (kv : KVServer) (op : Op) : KVServer × Answer :=
  if op.requestId ≤ kv.lastRequest op.uId ∧ op.op ≠ .get then (kv, { err := .ok })
  else
    match op.op with
    | .put => ({ kv with m := kv.m.insert op.key op.value }, { err := .ok })
    | .append =>
      ({ kv with m := kv.m.insert op.key (kv.value op.key ++ op.value) }, { err := .ok })
    | .get =>
      match kv.m.lookup op.key with
      | some value => (kv, { err := .ok, value := value })
      | none => (kv, { err := .errNoKey })

/-- `if kv.lastRequestId[op.UId] < op.RequestId` then it is set to `op.RequestId`. -/
def noteRequest (kv : KVServer) (op : Op) : KVServer :=
  if kv.lastRequest op.uId < op.requestId then
    { kv with lastRequestId := kv.lastRequestId.insert op.uId op.requestId }
  else kv

/-- The locked section of `fetchApply` for a command. -/
def applyCommand (kv : KVServer) (op : Op) : KVServer × Answer :=
  ((kv.execute op).1.noteRequest op, (kv.execute op).2)

/-! ## Requests -/

/-- What `PutAppend` answers before it asks Raft: the request has been executed. -/
def answerEarly (kv : KVServer) : Args → Option Answer
  | .get _ => none
  | .putAppend args =>
    if args.requestId ≤ kv.lastRequest args.uId then some { err := .ok } else none

/-! ## Snapshots -/

variable {σ : Type}

def createSnapshot (gob : Gob (RequestIds × Store) σ) (kv : KVServer) : List σ :=
  gob.encode (kv.lastRequestId, kv.m)

def readSnapshot (gob : Gob (RequestIds × Store) σ) (kv : KVServer) (data : List σ) : KVServer :=
  match gob.decode data with
  | none => kv
  | some (lastRequestId, m) => { m := m, lastRequestId := lastRequestId }

/-- The maps of a new server: `StartKVServer` makes them empty and reads the saved snapshot. -/
def startKVServer (gob : Gob (RequestIds × Store) σ) (snapshot : List σ) : KVServer :=
  readSnapshot gob {} snapshot

theorem readSnapshot_createSnapshot (gob : Gob (RequestIds × Store) σ) (kv kv' : KVServer) :
    kv.readSnapshot gob (kv'.createSnapshot gob) = kv' := by
  unfold readSnapshot createSnapshot
  rw [gob.decode_encode]

theorem readSnapshot_nil (gob : Gob (RequestIds × Store) σ) (kv : KVServer) :
    kv.readSnapshot gob [] = kv := by
  unfold readSnapshot
  rw [gob.decode_nil]

end KVServer

/-- The `op` that `Get` and `PutAppend` hand to `DealRequest`. -/
def Args.toOp : Args → Op
  | .get args => { key := args.key, op := .get, requestId := args.requestId, uId := args.uId }
  | .putAppend args =>
    { key := args.key
      value := args.value
      op := args.op
      requestId := args.requestId
      uId := args.uId }

/-- The call that an operation belongs to. -/
def Op.ident (op : Op) : Int × Int := (op.uId, op.requestId)

/-- The key of `kv.waitChan`. -/
def waitKey (call : Int × Int) (index : Int) : String :=
  Lib.commaKey call.1 call.2 index

theorem waitKey_injective : Function.Injective2 waitKey :=
  Lib.commaKey_injective2

/-! ## What an operation does to the two maps -/

namespace KVServer

theorem execute_lastRequestId (kv : KVServer) (op : Op) :
    (kv.execute op).1.lastRequestId = kv.lastRequestId := by
  unfold execute
  split
  · rfl
  · split
    · rfl
    · rfl
    · split <;> rfl

theorem noteRequest_m (kv : KVServer) (op : Op) : (kv.noteRequest op).m = kv.m := by
  unfold noteRequest
  split <;> rfl

theorem applyCommand_m (kv : KVServer) (op : Op) :
    (kv.applyCommand op).1.m = (kv.execute op).1.m :=
  noteRequest_m _ op

/-- `lastRequestId` keeps the highest id of each client. -/
theorem lastRequest_applyCommand (kv : KVServer) (op : Op) (uid : Int) :
    (kv.applyCommand op).1.lastRequest uid =
      if uid = op.uId then max (kv.lastRequest uid) op.requestId else kv.lastRequest uid := by
  have hsame : (kv.execute op).1.lastRequest = kv.lastRequest := by
    unfold lastRequest
    rw [execute_lastRequestId]
  unfold applyCommand noteRequest
  rw [hsame]
  by_cases huid : uid = op.uId
  · rw [if_pos huid, huid]
    by_cases hlt : kv.lastRequest op.uId < op.requestId
    · rw [if_pos hlt, lastRequest, Finmap.lookup_insert, max_eq_right hlt.le]
      rfl
    · rw [if_neg hlt, hsame, max_eq_left (not_lt.mp hlt)]
  · rw [if_neg huid]
    by_cases hlt : kv.lastRequest op.uId < op.requestId
    · rw [if_pos hlt, lastRequest, Finmap.lookup_insert_of_ne _ huid, execute_lastRequestId,
        lastRequest]
    · rw [if_neg hlt, hsame]

/-- An operation whose request id is not new changes nothing. -/
theorem applyCommand_of_le {kv : KVServer} {op : Op} (h : op.requestId ≤ kv.lastRequest op.uId) :
    (kv.applyCommand op).1 = kv := by
  have hexecute : (kv.execute op).1 = kv := by
    unfold execute
    by_cases hget : op.op = .get
    · rw [if_neg fun hskip ↦ hskip.2 hget, hget]
      dsimp only
      split <;> rfl
    · rw [if_pos ⟨h, hget⟩]
  unfold applyCommand noteRequest
  rw [hexecute, if_neg (not_lt.mpr h)]

end KVServer

/-! ## Sequences of operations -/

/-- The maps after the first `k` operations of the sequence. -/
def stateAfter : List Op → Nat → KVServer :=
  Lib.after (fun kv op ↦ (kv.applyCommand op).1) {}

theorem stateAfter_succ {cs : List Op} {k : Nat} {op : Op} (h : cs[k]? = some op) :
    stateAfter cs (k + 1) = ((stateAfter cs k).applyCommand op).1 :=
  Lib.after_succ h

theorem stateAfter_append {cs : List Op} {p : Nat} (h : p ≤ cs.length) (op : Op) :
    stateAfter (cs ++ [op]) p = stateAfter cs p :=
  Lib.after_of_isPrefix (List.prefix_append cs [op]) h

/-- What `lastRequestId` says about a client: the highest request id that it has had so far. -/
theorem le_lastRequest_iff {cs : List Op} {k : Nat} {uid r : Int} :
    r ≤ (stateAfter cs k).lastRequest uid ↔
      r ≤ 0 ∨ ∃ i op, i < k ∧ cs[i]? = some op ∧ op.uId = uid ∧ r ≤ op.requestId := by
  induction k with
  | zero =>
      change r ≤ 0 ↔ _
      simp
  | succ k ih =>
      -- the operations before `k + 1` are those before `k` and the one at `k`
      have hsplit : (∃ i op, i < k + 1 ∧ cs[i]? = some op ∧ op.uId = uid ∧ r ≤ op.requestId) ↔
          (∃ i op, i < k ∧ cs[i]? = some op ∧ op.uId = uid ∧ r ≤ op.requestId) ∨
            ∃ op, cs[k]? = some op ∧ op.uId = uid ∧ r ≤ op.requestId := by
        constructor
        · rintro ⟨i, op, hi, hop⟩
          rcases Nat.lt_succ_iff_lt_or_eq.mp hi with hlt | rfl
          · exact Or.inl ⟨i, op, hlt, hop⟩
          · exact Or.inr ⟨op, hop⟩
        · rintro (⟨i, op, hi, hop⟩ | ⟨op, hop⟩)
          · exact ⟨i, op, Nat.lt_succ_of_lt hi, hop⟩
          · exact ⟨k, op, Nat.lt_succ_self k, hop⟩
      rw [hsplit, ← or_assoc, ← ih]
      cases hk : cs[k]? with
      | none =>
          rw [stateAfter, Lib.after_succ_of_none hk]
          simp
      | some op =>
          rw [stateAfter_succ hk, KVServer.lastRequest_applyCommand]
          by_cases huid : uid = op.uId
          · rw [if_pos huid, le_max_iff]
            simp [huid]
          · rw [if_neg huid]
            simp [Ne.symm huid]

end Lab6824.KvRaft
