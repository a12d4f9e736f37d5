import Lab6824.Raft.Handlers
import Mathlib.Algebra.GroupWithZero.Nat

/-!
# Cluster — the servers, their goroutines and the network

A `World` is a whole cluster.  One step is one lock-held section of one goroutine of one server, one
delivery of a request, one message put on an `applyCh`, or a crash followed by a restart through
`Make`.  A request stays in the network after it has been delivered, so it may be delivered late,
again, in any order or never; a call takes at most one of the replies that its own request got, as
`labrpc`'s `Call` does, and a call that fails is one whose reply is never taken.
-/

namespace Lab6824

variable {n : Nat} {C σ : Type}

/-- The concrete runs below are those of three servers. -/
instance neZeroThree : NeZero 3 := ⟨by decide⟩

/-- One RPC: the call it belongs to, the server it is sent to and its arguments. -/
structure Envelope (n : Nat) (α : Type) where
  rpc : Nat
  dst : Fin n
  args : α
  deriving DecidableEq, Repr

/-- A goroutine running `elect`: its `cnt`, its loop variable and the calls that have not returned.
`counted` records the votes that `cnt` has counted, with the term each was asked for in; the code
does not keep it. -/
structure Elect (n : Nat) where
  cnt : Nat := 1
  next : Nat := 0
  calls : List (Envelope n (RequestVoteArgs n)) := []
  counted : List (Fin n × Int) := []

/-- A server: its `Raft` object and what its goroutines hold outside the lock.  `applyCh` is the
message that the service has received and is still working on, since the channel is unbuffered and
the service receives in a single loop. -/
structure Node (n : Nat) (C σ : Type) where
  rf : Raft n C σ
  elects : List (Elect n) := []
  appendCalls : List (Envelope n (AppendEntriesArgs n C)) := []
  snapshotCalls : List (Envelope n (InstallSnapshotArgs n σ)) := []
  /-- `updateApplied` has taken the token from `commitChan`. -/
  applierAwake : Bool := false
  /-- Messages that `updateApplied` has built and not sent yet. -/
  batch : List (ApplyMsg C σ) := []
  /-- Messages of the goroutines that `InstallSnapshot` started. -/
  snapshots : List (ApplyMsg C σ) := []
  applyCh : Option (ApplyMsg C σ) := none

/-- What an observer of the cluster notes down; no step reads it. -/
inductive Event (n : Nat) (C σ : Type) where
  /-- `toCandidate` moved the server into the term. -/
  | candidacy (s : Fin n) (term : Int)
  /-- `RequestVote` answered `VoteGranted = true` with this `currentTerm`. -/
  | granted (s : Fin n) (term : Int) (candidate : Fin n)
  /-- `toLeader`. -/
  | elected (s : Fin n) (term : Int)
  /-- A command message was put on `applyCh`. -/
  | applied (s : Fin n) (index : Int) (command : Option C)
  /-- `Snapshot` stored `data`; the entry at `index` had this term. -/
  | taken (s : Fin n) (index term : Int) (data : List σ)
  /-- `CondInstallSnapshot` accepted a snapshot. -/
  | installed (s : Fin n) (index term : Int) (data : List σ)
  deriving DecidableEq

/-- What is noted down of a call of `Snapshot`; `rf` is the server before the call, so the term is the
one that the entry had when it was covered, whatever the call makes of it. -/
def noteTaken {n : Nat} {C σ : Type} (s : Fin n) (rf : Raft n C σ) (index : Int) (data : List σ)
    (stored : Bool) (tr : List (Event n C σ)) : List (Event n C σ) :=
  match stored, rf.entryAt index with
  | true, some e => .taken s index e.term data :: tr
  | _, _ => tr

structure World (n : Nat) (C σ : Type) where
  nodes : Fin n → Node n C σ
  voteReqs : List (Envelope n (RequestVoteArgs n)) := []
  voteReps : List (Envelope n (RequestVoteArgs n) × RequestVoteReply) := []
  appendReqs : List (Envelope n (AppendEntriesArgs n C)) := []
  appendReps : List (Envelope n (AppendEntriesArgs n C) × AppendEntriesReply) := []
  snapshotReqs : List (Envelope n (InstallSnapshotArgs n σ)) := []
  snapshotReps : List (Envelope n (InstallSnapshotArgs n σ) × InstallSnapshotReply) := []
  nextRpc : Nat := 0
  trace : List (Event n C σ) := []

inductive Action (n : Nat) (C σ : Type) where
  /-- The election timer of `ticker` fires. -/
  | electTimeout (s : Fin n)
  /-- One iteration of the loop of the `k`-th `elect` goroutine. -/
  | electRound (s : Fin n) (k : Nat)
  | requestVote (env : Envelope n (RequestVoteArgs n))
  | voteReply (s : Fin n) (k : Nat) (env : Envelope n (RequestVoteArgs n))
      (reply : RequestVoteReply)
  | onRound (s server : Fin n)
  | appendEntries (env : Envelope n (AppendEntriesArgs n C))
  | appendReply (s : Fin n) (env : Envelope n (AppendEntriesArgs n C)) (reply : AppendEntriesReply)
  | installSnapshot (env : Envelope n (InstallSnapshotArgs n σ))
  | snapshotReply (s : Fin n) (env : Envelope n (InstallSnapshotArgs n σ))
      (reply : InstallSnapshotReply)
  | start (s : Fin n) (command : Option C)
  /-- `<-rf.commitChan` in `updateApplied`. -/
  | wakeApplier (s : Fin n)
  | updateApplied (s : Fin n)
  /-- `updateApplied` puts its next message on `applyCh`. -/
  | sendCommand (s : Fin n)
  /-- The `k`-th goroutine of `InstallSnapshot` puts its message on `applyCh`. -/
  | sendSnapshot (s : Fin n) (k : Nat)
  /-- The service is done with the message it received. -/
  | serviceDone (s : Fin n)
  /-- The service hands the snapshot it received to `CondInstallSnapshot`. -/
  | condInstallSnapshot (s : Fin n)
  | snapshot (s : Fin n) (index : Int) (data : List σ)
  | crash (s : Fin n)

namespace World

/-- A cluster whose servers have all been made from empty persisters. -/
def init : World n C σ where
  nodes := fun s ↦ { rf := Raft.fresh s {} }

/-! ## Elections -/

def electTimeout (gob : Gob (RaftImage n C) σ) (w : World n C σ) (s : Fin n) : World n C σ :=
  let nd := w.nodes s
  if nd.rf.state ≠ .leader then
    { w with
      nodes := Function.update w.nodes s
        { nd with rf := nd.rf.toCandidate gob, elects := nd.elects ++ [{}] }
      trace := .candidacy s (nd.rf.currentTerm + 1) :: w.trace }
  else w

def electRound (w : World n C σ) (s : Fin n) (k : Nat) : Option (World n C σ) :=
  let nd := w.nodes s
  match nd.elects[k]? with
  | none => none
  | some el =>
    if h : el.next < n then
      if ⟨el.next, h⟩ = nd.rf.me then
        let el' := { el with next := el.next + 1 }
        some { w with
          nodes := Function.update w.nodes s { nd with elects := nd.elects.set k el' } }
      else
        match nd.rf.voteArgs with
        | none => none
        | some args =>
          let env := { rpc := w.nextRpc, dst := ⟨el.next, h⟩, args := args }
          let el' := { el with next := el.next + 1, calls := env :: el.calls }
          some { w with
            nodes := Function.update w.nodes s { nd with elects := nd.elects.set k el' }
            voteReqs := env :: w.voteReqs
            nextRpc := w.nextRpc + 1 }
    else none

def requestVote (gob : Gob (RaftImage n C) σ) (w : World n C σ)
    (env : Envelope n (RequestVoteArgs n)) : Option (World n C σ) :=
  if env ∈ w.voteReqs then
    let nd := w.nodes env.dst
    match nd.rf.requestVote gob env.args with
    | none => none
    | some (rf, reply) =>
      some { w with
        nodes := Function.update w.nodes env.dst { nd with rf := rf }
        voteReps := (env, reply) :: w.voteReps
        trace :=
          if reply.voteGranted then
            .granted env.dst rf.currentTerm env.args.candidateId :: w.trace
          else w.trace }
  else none

/-- The closure in `elect` after its call has returned. -/
def voteReply (gob : Gob (RaftImage n C) σ) (w : World n C σ) (s : Fin n) (k : Nat)
    (env : Envelope n (RequestVoteArgs n)) (reply : RequestVoteReply) : Option (World n C σ) :=
  let nd := w.nodes s
  match nd.elects[k]? with
  | none => none
  | some el =>
    if env ∈ el.calls ∧ (env, reply) ∈ w.voteReps then
      let reply := { reply with sendTerm := env.args.term }
      let el := { el with calls := el.calls.erase env }
      if nd.rf.currentTerm < reply.term then
        some { w with
          nodes := Function.update w.nodes s
            { nd with rf := nd.rf.toFollower gob reply.term none, elects := nd.elects.set k el } }
      else if nd.rf.countsVote reply then
        let el :=
          { el with cnt := el.cnt + 1, counted := (env.dst, env.args.term) :: el.counted }
        if el.cnt ≥ n / 2 + 1 then
          some { w with
            nodes := Function.update w.nodes s
              { nd with rf := nd.rf.toLeader, elects := nd.elects.set k el }
            trace := .elected s nd.rf.currentTerm :: w.trace }
        else
          some { w with
            nodes := Function.update w.nodes s { nd with elects := nd.elects.set k el } }
      else
        some { w with
          nodes := Function.update w.nodes s { nd with elects := nd.elects.set k el } }
    else none

/-! ## Log replication -/

/-- `onRound` up to its call.  `broadcastAppendEntries` starts no round for the server itself. -/
def onRound (w : World n C σ) (s server : Fin n) : Option (World n C σ) :=
  if server = s then none
  else
    let nd := w.nodes s
    match nd.rf.onRound server with
    | none => none
    | some .idle => some w
    | some (.snapshot args) =>
      let env := { rpc := w.nextRpc, dst := server, args := args }
      some { w with
        nodes := Function.update w.nodes s { nd with snapshotCalls := env :: nd.snapshotCalls }
        snapshotReqs := env :: w.snapshotReqs
        nextRpc := w.nextRpc + 1 }
    | some (.append args) =>
      let env := { rpc := w.nextRpc, dst := server, args := args }
      some { w with
        nodes := Function.update w.nodes s { nd with appendCalls := env :: nd.appendCalls }
        appendReqs := env :: w.appendReqs
        nextRpc := w.nextRpc + 1 }

section Decidable

variable [DecidableEq C] [DecidableEq σ]

def appendEntries (gob : Gob (RaftImage n C) σ) (w : World n C σ)
    (env : Envelope n (AppendEntriesArgs n C)) : Option (World n C σ) :=
  if env ∈ w.appendReqs then
    let nd := w.nodes env.dst
    match nd.rf.appendEntries gob env.args with
    | none => none
    | some (rf, reply) =>
      some { w with
        nodes := Function.update w.nodes env.dst { nd with rf := rf }
        appendReps := (env, reply) :: w.appendReps }
  else none

def appendReply (gob : Gob (RaftImage n C) σ) (w : World n C σ) (s : Fin n)
    (env : Envelope n (AppendEntriesArgs n C)) (reply : AppendEntriesReply) :
    Option (World n C σ) :=
  let nd := w.nodes s
  if env ∈ nd.appendCalls ∧ (env, reply) ∈ w.appendReps then
    let reply := { reply with sendTerm := env.args.term }
    match nd.rf.handleAppendEntriesReply gob env.args reply env.dst with
    | none => none
    | some rf =>
      some { w with
        nodes := Function.update w.nodes s
          { nd with rf := rf, appendCalls := nd.appendCalls.erase env } }
  else none

/-! ## Snapshots -/

def installSnapshot (gob : Gob (RaftImage n C) σ) (w : World n C σ)
    (env : Envelope n (InstallSnapshotArgs n σ)) : Option (World n C σ) :=
  if env ∈ w.snapshotReqs then
    let nd := w.nodes env.dst
    let (rf, reply, msg) := nd.rf.installSnapshot gob env.args
    some { w with
      nodes := Function.update w.nodes env.dst
        { nd with rf := rf, snapshots := nd.snapshots ++ msg.toList }
      snapshotReps := (env, reply) :: w.snapshotReps }
  else none

def snapshotReply (gob : Gob (RaftImage n C) σ) (w : World n C σ) (s : Fin n)
    (env : Envelope n (InstallSnapshotArgs n σ)) (reply : InstallSnapshotReply) :
    Option (World n C σ) :=
  let nd := w.nodes s
  if env ∈ nd.snapshotCalls ∧ (env, reply) ∈ w.snapshotReps then
    let rf := nd.rf.handleSnapshotReply gob env.args.lastIncludedIndex reply env.dst
    some { w with
      nodes := Function.update w.nodes s
        { nd with rf := rf, snapshotCalls := nd.snapshotCalls.erase env } }
  else none

end Decidable

def condInstallSnapshot (gob : Gob (RaftImage n C) σ) (w : World n C σ) (s : Fin n) :
    Option (World n C σ) :=
  let nd := w.nodes s
  match nd.applyCh with
  | none => none
  | some msg =>
    if msg.snapshotValid then
      match nd.rf.condInstallSnapshot gob msg.snapshotTerm msg.snapshotIndex msg.snapshot with
      | none => none
      | some (rf, accepted) =>
        some { w with
          nodes := Function.update w.nodes s { nd with rf := rf, applyCh := none }
          trace :=
            if accepted then
              .installed s msg.snapshotIndex msg.snapshotTerm msg.snapshot :: w.trace
            else w.trace }
    else none

def snapshot (gob : Gob (RaftImage n C) σ) (w : World n C σ) (s : Fin n) (index : Int)
    (data : List σ) : Option (World n C σ) :=
  let nd := w.nodes s
  match nd.rf.snapshot gob index data with
  | none => none
  | some (rf, stored) =>
    some { w with
      nodes := Function.update w.nodes s { nd with rf := rf }
      trace := noteTaken s nd.rf index data stored w.trace }

/-! ## The service and the applier -/

def start (gob : Gob (RaftImage n C) σ) (w : World n C σ) (s : Fin n) (command : Option C) :
    World n C σ :=
  let nd := w.nodes s
  { w with nodes := Function.update w.nodes s { nd with rf := (nd.rf.start gob command).1 } }

def wakeApplier (w : World n C σ) (s : Fin n) : Option (World n C σ) :=
  let nd := w.nodes s
  if nd.rf.commitChan ∧ ¬ nd.applierAwake ∧ nd.batch = [] then
    let rf := nd.rf
    some { w with
      nodes := Function.update w.nodes s
        { nd with rf := { rf with commitChan := false }, applierAwake := true } }
  else none

def updateApplied (w : World n C σ) (s : Fin n) : Option (World n C σ) :=
  let nd := w.nodes s
  if nd.applierAwake then
    match nd.rf.updateApplied with
    | none => none
    | some (rf, msgs) =>
      some { w with
        nodes := Function.update w.nodes s
          { nd with rf := rf, applierAwake := false, batch := msgs } }
  else none

def sendCommand (w : World n C σ) (s : Fin n) : Option (World n C σ) :=
  let nd := w.nodes s
  match nd.applyCh, nd.batch with
  | none, msg :: rest =>
    some { w with
      nodes := Function.update w.nodes s { nd with applyCh := some msg, batch := rest }
      trace := .applied s msg.commandIndex msg.command :: w.trace }
  | _, _ => none

def sendSnapshot (w : World n C σ) (s : Fin n) (k : Nat) : Option (World n C σ) :=
  let nd := w.nodes s
  match nd.applyCh, nd.snapshots[k]? with
  | none, some msg =>
    some { w with
      nodes := Function.update w.nodes s
        { nd with applyCh := some msg, snapshots := nd.snapshots.eraseIdx k } }
  | _, _ => none

def serviceDone (w : World n C σ) (s : Fin n) : World n C σ :=
  let nd := w.nodes s
  { w with nodes := Function.update w.nodes s { nd with applyCh := none } }

/-- The incarnation ends, and with it everything that its goroutines held; the next one starts from
the persister. -/
def crash (gob : Gob (RaftImage n C) σ) (w : World n C σ) (s : Fin n) : Option (World n C σ) :=
  match Raft.make gob s (w.nodes s).rf.persister.copy with
  | none => none
  | some rf => some { w with nodes := Function.update w.nodes s { rf := rf } }

/-! ## Runs -/

variable [DecidableEq C] [DecidableEq σ]

/-- One step of the cluster; `none` when the action is not possible, or when the section panics. -/
def step (gob : Gob (RaftImage n C) σ) (w : World n C σ) : Action n C σ → Option (World n C σ)
  | .electTimeout s => some (w.electTimeout gob s)
  | .electRound s k => w.electRound s k
  | .requestVote env => w.requestVote gob env
  | .voteReply s k env reply => w.voteReply gob s k env reply
  | .onRound s server => w.onRound s server
  | .appendEntries env => w.appendEntries gob env
  | .appendReply s env reply => w.appendReply gob s env reply
  | .installSnapshot env => w.installSnapshot gob env
  | .snapshotReply s env reply => w.snapshotReply gob s env reply
  | .start s command => some (w.start gob s command)
  | .wakeApplier s => w.wakeApplier s
  | .updateApplied s => w.updateApplied s
  | .sendCommand s => w.sendCommand s
  | .sendSnapshot s k => w.sendSnapshot s k
  | .serviceDone s => some (w.serviceDone s)
  | .condInstallSnapshot s => w.condInstallSnapshot gob s
  | .snapshot s index data => w.snapshot gob s index data
  | .crash s => w.crash gob s

end World

end Lab6824
