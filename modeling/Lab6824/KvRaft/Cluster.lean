import Lab6824.KvRaft.Server
import Lab6824.Lib.Linearizable
import Lab6824.Lib.System
import Lab6824.Raft.Cluster

/-!
# Cluster — clerks, servers and the network between them

Clerks as in `kvraft/client.go` call a cluster of key/value servers.  Raft appears by what it gives
to the servers: one common sequence of operations, of which every server is handed a prefix in order.
The sequence is extended by any operation that some server has passed to `Start`; which one, and how
often the same, is left open, and so is the index that `Start` returns.

A request stays in the network after it was delivered, so it may come late, again or never; a `Call`
takes a reply to its own request, or fails.
-/

namespace Lab6824.KvRaft

/-! ## The sequential model -/

structure KvInput where
  /-- `0` is get, `1` is put, `2` is append. -/
  op : UInt8
  key : String
  value : String := ""
  deriving DecidableEq, Repr

structure KvOutput where
  value : String := ""
  deriving DecidableEq, Repr

/-- `models.KvModel`: one string for each key, empty at first. -/
def kvModel : Lib.Model KvInput KvOutput String String where
  partition := KvInput.key
  init := ""
  step st inp out :=
    if inp.op = 0 then (out.value == st, st)
    else if inp.op = 1 then (true, inp.value)
    else (true, st ++ inp.value)

/-- The input that an operation stands for. -/
def Op.input (op : Op) : KvInput where
  op :=
    match op.op with
    | .get => 0
    | .put => 1
    | .append => 2
  key := op.key
  value := op.value

/-! ## Clerks -/

/-- The methods of a `Clerk`. -/
inductive Method where
  | get (key : String)
  | put (key value : String)
  | append (key value : String)
  deriving DecidableEq, Repr

/-- The arguments that the call `(uid, requestId)` of the method sends. -/
def Method.args (method : Method) (uid requestId : Int) : Args :=
  match method with
  | .get key => .get { key := key, uId := uid, requestId := requestId }
  | .put key value =>
    .putAppend { key := key, value := value, op := .put, uId := uid, requestId := requestId }
  | .append key value =>
    .putAppend { key := key, value := value, op := .append, uId := uid, requestId := requestId }

/-- The loop of `Get` or `PutAppend`; `rpc` is the request whose `Call` has not returned. -/
structure Loop (n : Nat) where
  method : Method
  leader : Fin n
  oldLeader : Fin n
  rpc : Option (Envelope n Args) := none

structure Clerk (n : Nat) where
  uid : Int
  requestId : Int := 0
  leaderId : Fin n
  loop : Option (Loop n) := none

variable {n m : Nat}

def makeClerk [NeZero n] (uid : Int) : Clerk n where
  uid := uid
  leaderId := 0

namespace Clerk

def begin (ck : Clerk n) (method : Method) : Clerk n :=
  { ck with
    requestId := ck.requestId + 1
    loop := some { method := method, leader := ck.leaderId, oldLeader := ck.leaderId } }

/-- `continue`, with the next server. -/
def again [NeZero n] (ck : Clerk n) (loop : Loop n) : Clerk n :=
  { ck with loop := some { loop with leader := loop.leader + 1, rpc := none } }

def finish (ck : Clerk n) (loop : Loop n) : Clerk n :=
  { ck with
    leaderId := if loop.oldLeader ≠ loop.leader then loop.leader else ck.leaderId
    loop := none }

end Clerk

/-- Whether the loop goes on after this reply. -/
def Method.retries (method : Method) (reply : Answer) : Bool :=
  match method with
  | .get _ => reply.err = .errWrongLeader
  | _ => reply.err ≠ .ok

/-- What the method returns. -/
def Method.result (method : Method) (reply : Answer) : KvOutput :=
  match method with
  | .get _ => if reply.err = .errNoKey then { value := "" } else { value := reply.value }
  | _ => {}

/-! ## The cluster -/

variable {σ : Type}

/-- The service that the servers run. -/
def kvService (n : Nat) (gob : Gob (RequestIds × Store) σ) :
    Lib.Service KVServer (Envelope n Args) Op Answer (Int × Int) String (List σ) where
  start := {}
  request env := env.args.toOp
  early kv env := kv.answerEarly env.args
  exec := KVServer.applyCommand
  refused := { err := .errWrongLeader }
  ident := Op.ident
  key := waitKey
  key_injective := waitKey_injective
  blank := []
  save := KVServer.createSnapshot gob
  load kv data := kv.readSnapshot gob data
  load_save := KVServer.readSnapshot_createSnapshot gob
  load_blank := KVServer.readSnapshot_nil gob {}

abbrev KvNode (n : Nat) (σ : Type) :=
  Lib.Node KVServer (Envelope n Args) Op Answer String (List σ)

/-- An event of the history, with the length of the committed sequence at that time. -/
abbrev Stamped := Nat × Lib.Event (Int × Int) KvInput KvOutput

structure Cluster (n m : Nat) (σ : Type) where
  clerks : Fin m → Clerk n
  nodes : Fin n → KvNode n σ
  requests : List (Envelope n Args) := []
  replies : List (Envelope n Args × Answer) := []
  nextRpc : Nat := 0
  /-- The operations that a leader's `Start` has taken. -/
  started : List Op := []
  committed : List Op := []
  /-- The calls of the clerks' methods and their returns; no step reads it. -/
  history : List Stamped := []

inductive ClusterAction (n m : Nat) where
  /-- A client calls a method of the clerk. -/
  | call (c : Fin m) (method : Method)
  /-- The loop of the clerk sends a request. -/
  | send (c : Fin m)
  /-- `Call` returns `false`. -/
  | fail (c : Fin m)
  /-- `Call` returns `true`, with this reply. -/
  | reply (c : Fin m) (answer : Answer)
  | server (s : Fin n) (action : Lib.NodeAction (Envelope n Args))
  /-- The common sequence gets one more operation. -/
  | commit (op : Op)

namespace Cluster

def setClerk (w : Cluster n m σ) (c : Fin m) (ck : Clerk n) : Cluster n m σ :=
  { w with clerks := Function.update w.clerks c ck }

def init [NeZero n] (uids : Fin m → Int) : Cluster n m σ where
  clerks c := makeClerk (uids c)
  nodes _ := { state := {}, saved := ([], 0) }

def call (w : Cluster n m σ) (c : Fin m) (method : Method) : Option (Cluster n m σ) :=
  let ck := w.clerks c
  match ck.loop with
  | some _ => none
  | none =>
    let ck' := ck.begin method
    let op := (method.args ck'.uid ck'.requestId).toOp
    some
      { w.setClerk c ck' with
        history := w.history ++ [(w.committed.length, .call op.ident op.input)] }

def send (w : Cluster n m σ) (c : Fin m) : Option (Cluster n m σ) :=
  let ck := w.clerks c
  match ck.loop with
  | some ⟨method, leader, oldLeader, none⟩ =>
    let env : Envelope n Args :=
      { rpc := w.nextRpc, dst := leader, args := method.args ck.uid ck.requestId }
    some
      { w.setClerk c { ck with loop := some ⟨method, leader, oldLeader, some env⟩ } with
        requests := env :: w.requests
        nextRpc := w.nextRpc + 1 }
  | _ => none

def fail [NeZero n] (w : Cluster n m σ) (c : Fin m) : Option (Cluster n m σ) :=
  let ck := w.clerks c
  match ck.loop with
  | some ⟨method, leader, oldLeader, some env⟩ =>
    some (w.setClerk c (ck.again ⟨method, leader, oldLeader, some env⟩))
  | _ => none

def reply [NeZero n] (w : Cluster n m σ) (c : Fin m) (answer : Answer) :
    Option (Cluster n m σ) :=
  let ck := w.clerks c
  match ck.loop with
  | some ⟨method, leader, oldLeader, some env⟩ =>
    let loop : Loop n := ⟨method, leader, oldLeader, some env⟩
    if (env, answer) ∈ w.replies then
      if method.retries answer then some (w.setClerk c (ck.again loop))
      else
        some
          { w.setClerk c (ck.finish loop) with
            history := w.history ++
              [(w.committed.length, .ret (ck.uid, ck.requestId) (method.result answer))] }
    else none
  | _ => none

/-- A request reaches the server that it was sent to. -/
def arrives (w : Cluster n m σ) (s : Fin n) : Lib.NodeAction (Envelope n Args) → Bool
  | .handle env => env ∈ w.requests ∧ env.dst = s
  | _ => true

def server (gob : Gob (RequestIds × Store) σ) (w : Cluster n m σ) (s : Fin n)
    (action : Lib.NodeAction (Envelope n Args)) : Option (Cluster n m σ) :=
  if w.arrives s action then
    match (w.nodes s).step (kvService n gob) w.committed action with
    | none => none
    | some out =>
      some
        { w with
          nodes := Function.update w.nodes s out.node
          started := out.started ++ w.started
          replies := out.replies ++ w.replies }
  else none

def commit (w : Cluster n m σ) (op : Op) : Option (Cluster n m σ) :=
  if op ∈ w.started then some { w with committed := w.committed ++ [op] } else none

def step [NeZero n] (gob : Gob (RequestIds × Store) σ) (w : Cluster n m σ) :
    ClusterAction n m → Option (Cluster n m σ)
  | .call c method => w.call c method
  | .send c => w.send c
  | .fail c => w.fail c
  | .reply c answer => w.reply c answer
  | .server s action => w.server gob s action
  | .commit op => w.commit op

end Cluster

end Lab6824.KvRaft
