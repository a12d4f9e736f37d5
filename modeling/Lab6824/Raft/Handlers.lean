import Lab6824.Raft.State
import Mathlib.Logic.Function.Basic

/-!
# Handlers — the lock-held sections of `raft/raft.go`

Each definition is one section that runs with `rf.mu` held.  `none` is a Go panic (an index out of
range), so a section that returns `some` has made only legal accesses.
-/

namespace Lab6824

variable {n : Nat} {C σ : Type}

namespace Raft

/-! ## Persistence -/

def raftState (gob : Gob (RaftImage n C) σ) (rf : Raft n C σ) : List σ :=
  gob.encode rf.image

def persist (gob : Gob (RaftImage n C) σ) (rf : Raft n C σ) : Raft n C σ :=
  { rf with persister := rf.persister.saveRaftState (rf.raftState gob) }

def readPersist (gob : Gob (RaftImage n C) σ) (rf : Raft n C σ) (data : List σ) : Raft n C σ :=
  if data.length < 1 then rf
  else
    match gob.decode data with
    | none => rf
    | some im =>
      { rf with
        currentTerm := im.currentTerm
        votedFor := im.votedFor
        lastIncludedIndex := im.lastIncludedIndex
        lastIncludedTerm := im.lastIncludedTerm
        -- `commitIndex` is not set, and may be behind `lastApplied` from here on
        lastApplied := im.lastIncludedIndex
        log := im.log }

/-- The fields that `Make` sets before it reads the persister. -/
def fresh (me : Fin n) (persister : Persister σ) : Raft n C σ where
  me := me
  persister := persister
  currentTerm := 0
  votedFor := none
  log := [{}]
  lastIncludedIndex := 0
  lastIncludedTerm := 0
  lastApplied := 0
  commitIndex := 0
  nextIndex := fun _ ↦ 1
  matchIndex := fun _ ↦ 0
  state := .follower
  commitChan := false

/-- `Make`: the restored log gets `lastIncludedTerm` as the term of its dummy entry. -/
def make (gob : Gob (RaftImage n C) σ) (me : Fin n) (persister : Persister σ) :
    Option (Raft n C σ) :=
  let rf := (fresh me persister).readPersist gob persister.raftstate
  match rf.log with
  | [] => none
  | dummy :: rest => some { rf with log := { dummy with term := rf.lastIncludedTerm } :: rest }

/-! ## Role changes -/

def toFollower (gob : Gob (RaftImage n C) σ) (rf : Raft n C σ) (term : Int)
    (votedFor : Option (Fin n)) : Raft n C σ :=
  persist gob { rf with state := .follower, currentTerm := term, votedFor := votedFor }

/-- The `go rf.elect()` that ends `toCandidate` is part of the cluster's step. -/
def toCandidate (gob : Gob (RaftImage n C) σ) (rf : Raft n C σ) : Raft n C σ :=
  persist gob
    { rf with state := .candidate, currentTerm := rf.currentTerm + 1, votedFor := some rf.me }

def toLeader (rf : Raft n C σ) : Raft n C σ :=
  { rf with
    state := .leader
    nextIndex := fun _ ↦ rf.logicIndex rf.log.length
    matchIndex := fun _ ↦ 0 }

/-- `if rf.currentTerm < term { rf.toFollower(term, -1) }`, the step-down that four of the sections
below begin with. -/
def stepDown (gob : Gob (RaftImage n C) σ) (rf : Raft n C σ) (term : Int) : Raft n C σ :=
  if rf.currentTerm < term then rf.toFollower gob term none else rf

/-! ## Voting -/

/-- Whether the log of `rf` is more recent than the one described by the arguments. -/
def isFreshThan (rf : Raft n C σ) (lastLogIndex lastLogTerm : Int) : Option Bool :=
  match logAt rf.log (rf.log.length - 1) with
  | none => none
  | some last =>
    if lastLogTerm > last.term ∨ lastLogTerm = last.term ∧ lastLogIndex ≥ rf.getLastLogIndex then
      some false
    else some true

def requestVote (gob : Gob (RaftImage n C) σ) (rf : Raft n C σ) (args : RequestVoteArgs n) :
    Option (Raft n C σ × RequestVoteReply) :=
  let rf := rf.stepDown gob args.term
  let reply : RequestVoteReply := { term := rf.currentTerm }
  -- the request is stale, or the vote of this term has gone to another candidate
  if rf.currentTerm > args.term ∨
      rf.currentTerm = args.term ∧ rf.votedFor ≠ none ∧ rf.votedFor ≠ some args.candidateId then
    some (rf, reply)
  else
    match rf.isFreshThan args.lastLogIndex args.lastLogTerm with
    | none => none
    | some true => some (rf, reply)
    | some false =>
      some (persist gob { rf with votedFor := some args.candidateId },
        { reply with voteGranted := true })

/-- The arguments that one iteration of the loop in `elect` builds. -/
def voteArgs (rf : Raft n C σ) : Option (RequestVoteArgs n) :=
  match logAt rf.log (rf.log.length - 1) with
  | none => none
  | some last =>
    some
      { term := rf.currentTerm
        candidateId := rf.me
        lastLogIndex := rf.getLastLogIndex
        lastLogTerm := last.term }

/-- Whether the goroutine in `elect` counts a reply: the test it makes after a step-down has been
ruled out. -/
def countsVote (rf : Raft n C σ) (reply : RequestVoteReply) : Bool :=
  !(decide (rf.state ≠ .candidate) || decide (reply.sendTerm ≠ rf.currentTerm) ||
    !reply.voteGranted)

/-! ## Log replication -/

/-- What `onRound` sends. -/
inductive Round (n : Nat) (C σ : Type) where
  | idle
  | snapshot (args : InstallSnapshotArgs n σ)
  | append (args : AppendEntriesArgs n C)
  deriving DecidableEq

/-- The section of `onRound` up to the call. -/
def onRound (rf : Raft n C σ) (server : Fin n) : Option (Round n C σ) :=
  if rf.state = .leader then
    let prevLogIndex := rf.nextIndex server - 1
    if prevLogIndex < rf.lastIncludedIndex then
      -- an entry that the server needs has been compacted away
      some (.snapshot
        { term := rf.currentTerm
          leaderId := rf.me
          lastIncludedIndex := rf.lastIncludedIndex
          lastIncludedTerm := rf.lastIncludedTerm
          data := rf.persister.snapshot })
    else
      let index := rf.realIndex prevLogIndex
      -- `rf.log[index].Term` panics if `nextIndex` is past the end of the log
      match logAt rf.log index with
      | none => none
      | some prev =>
        let entries :=
          if rf.getLastLogIndex > prevLogIndex then rf.log.drop (index + 1).toNat else []
        some (.append
          { term := rf.currentTerm
            leaderId := rf.me
            prevLogIndex := prevLogIndex
            prevLogTerm := prev.term
            entries := entries
            leaderCommit := rf.commitIndex })
  else some .idle

/-- `for ; i > 0; i-- { if log[i].Term != term { break } }`, the final `i`. -/
def conflictStart (log : List (Log C)) (term : Int) : Nat → Option Nat
  | 0 => some 0
  | i + 1 =>
    match log[i + 1]? with
    | none => none
    | some e => if e.term ≠ term then some (i + 1) else conflictStart log term i

/-- The merge loop from `index` on: the final `index` and whether a conflict ended the loop.  The
list holds the entries that are still to be compared, so `index <= end` fails when it is empty. -/
def mergeScan (log : List (Log C)) : Nat → List (Log C) → Nat × Bool
  | index, [] => (index, false)
  | index, e :: es =>
    match log[index]? with
    | none => (index, false)
    | some l => if l.term ≠ e.term then (index, true) else mergeScan log (index + 1) es

/-- The step-down of `AppendEntries`: unlike `stepDown` it also makes a candidate of the same term
a follower. -/
def appendStepDown (gob : Gob (RaftImage n C) σ) (rf : Raft n C σ) (term : Int) : Raft n C σ :=
  if rf.currentTerm < term ∨ rf.state = .candidate ∧ rf.currentTerm = term then
    rf.toFollower gob term none
  else rf

/-- The part of `AppendEntries` that runs once the previous entry has been found to match. -/
def mergeEntries (gob : Gob (RaftImage n C) σ) (rf : Raft n C σ) (args : AppendEntriesArgs n C)
    (pli : Nat) : Raft n C σ :=
  let scan := mergeScan rf.log (pli + 1) args.entries
  let rf :=
    -- also replaced where the loop has come to the end of the log without a conflict
    if scan.2 ∨ scan.1 = rf.log.length then
      persist gob { rf with log := rf.log.take (pli + 1) ++ args.entries }
    else rf
  if args.leaderCommit > rf.commitIndex then
    { rf with
      commitIndex := min args.leaderCommit (args.prevLogIndex + args.entries.length)
      commitChan := true }
  else rf

def appendEntries (gob : Gob (RaftImage n C) σ) (rf : Raft n C σ) (args : AppendEntriesArgs n C) :
    Option (Raft n C σ × AppendEntriesReply) :=
  let rf := rf.appendStepDown gob args.term
  let reply : AppendEntriesReply := { term := rf.currentTerm }
  if rf.currentTerm > args.term then some (rf, reply)
  else
    let pli := rf.realIndex args.prevLogIndex
    if args.prevLogIndex > rf.getLastLogIndex ∨ pli < 0 then
      -- the log is too short, or the previous entry has been compacted away
      some (rf, { reply with conflictIndex := rf.getLastLogIndex + 1, conflictTerm := -1 })
    else
      match logAt rf.log pli with
      | none => none
      | some prev =>
        if prev.term ≠ args.prevLogTerm then
          -- `ConflictIndex` is the first index of the term, as far as the log goes back
          match conflictStart rf.log prev.term pli.toNat with
          | none => none
          | some i =>
            some (rf,
              { reply with
                conflictTerm := prev.term
                conflictIndex := rf.logicIndex ((i : Int) + 1) })
        else some (rf.mergeEntries gob args pli.toNat, { reply with success := true })

/-- `for ; i > 0; i-- { if log[i].Term == term { break } }`, the final `i`. -/
def lastOfTerm (log : List (Log C)) (term : Int) : Nat → Option Nat
  | 0 => some 0
  | i + 1 =>
    match log[i + 1]? with
    | none => none
    | some e => if e.term = term then some (i + 1) else lastOfTerm log term i

/-- The next index that a rejected `AppendEntries` leads to. -/
def backUp (rf : Raft n C σ) (reply : AppendEntriesReply) : Option Int :=
  if reply.conflictTerm = -1 then some reply.conflictIndex
  else
    match lastOfTerm rf.log reply.conflictTerm (rf.log.length - 1) with
    | none => none
    | some i =>
      match rf.log[i]? with
      | none => none
      | some e =>
        -- the leader has no entry of that term
        if i = 0 ∨ e.term ≠ reply.conflictTerm then some reply.conflictIndex
        else some (rf.logicIndex ((i : Int) + 1))

/-- `cnt` at the end of the loop that counts the servers whose `matchIndex` has reached
`newCommit`, the leader included. -/
def matchCount (rf : Raft n C σ) (newCommit : Int) : Nat :=
  1 + (List.finRange n).countP fun s ↦ decide (s ≠ rf.me ∧ rf.matchIndex s ≥ newCommit)

/-- The end of `handleAppendEntriesReply`: advance `commitIndex` to `newCommit` if a majority has
it. -/
def advanceCommit (rf : Raft n C σ) (newCommit : Int) (reply : AppendEntriesReply) : Raft n C σ :=
  if rf.commitIndex < newCommit ∧ rf.currentTerm = reply.term ∧
      rf.matchCount newCommit ≥ n / 2 + 1 then
    { rf with commitIndex := newCommit, commitChan := true }
  else rf

/-- The success branch of `handleAppendEntriesReply`. -/
def recordMatch (rf : Raft n C σ) (args : AppendEntriesArgs n C) (reply : AppendEntriesReply)
    (server : Fin n) : Raft n C σ :=
  let rf := { rf with nextIndex := Function.update rf.nextIndex server (rf.logicIndex rf.log.length) }
  let oldMatchIndex := rf.matchIndex server
  -- the function returns before it looks at `commitIndex` if this reply raises nothing
  let matched := args.prevLogIndex + args.entries.length
  if oldMatchIndex < matched then
    advanceCommit { rf with matchIndex := Function.update rf.matchIndex server matched } matched reply
  else rf

def handleAppendEntriesReply (gob : Gob (RaftImage n C) σ) (rf : Raft n C σ)
    (args : AppendEntriesArgs n C) (reply : AppendEntriesReply) (server : Fin n) :
    Option (Raft n C σ) :=
  let rf := rf.stepDown gob reply.term
  if rf.state ≠ .leader ∨ reply.sendTerm ≠ rf.currentTerm then some rf
  else if reply.success then some (rf.recordMatch args reply server)
  else
    match rf.backUp reply with
    | none => none
    | some next => some { rf with nextIndex := Function.update rf.nextIndex server next }

/-- `Start`, with the three values it returns. -/
def start (gob : Gob (RaftImage n C) σ) (rf : Raft n C σ) (command : Option C) :
    Raft n C σ × Int × Int × Bool :=
  if rf.state = .leader then
    let rf' := persist gob
      { rf with log := rf.log ++ [{ command := command, term := rf.currentTerm }] }
    (rf', rf'.logicIndex (rf'.log.length - 1), rf.currentTerm, true)
  else (rf, -1, rf.currentTerm, false)

/-! ## Snapshots -/

def installSnapshot (gob : Gob (RaftImage n C) σ) (rf : Raft n C σ)
    (args : InstallSnapshotArgs n σ) :
    Raft n C σ × InstallSnapshotReply × Option (ApplyMsg C σ) :=
  let rf := rf.stepDown gob args.term
  let reply : InstallSnapshotReply := { term := rf.currentTerm }
  if rf.currentTerm > args.term then (rf, reply, none)
  else if rf.commitIndex ≥ args.lastIncludedIndex then (rf, reply, none)
  else
    -- nothing is installed here: the message goes to the service on a goroutine of its own
    (rf, reply, some
      { snapshotValid := true
        snapshot := args.data
        snapshotTerm := args.lastIncludedTerm
        snapshotIndex := args.lastIncludedIndex })

/-- The section of `onRound` that handles the reply to `InstallSnapshot`; `lastIncludedIndex` is the
value read before the call. -/
def handleSnapshotReply (gob : Gob (RaftImage n C) σ) (rf : Raft n C σ) (lastIncludedIndex : Int)
    (reply : InstallSnapshotReply) (server : Fin n) : Raft n C σ :=
  if rf.currentTerm < reply.term then rf.toFollower gob reply.term none
  else
    -- neither the role nor the term of the call is looked at
    { rf with
      matchIndex :=
        Function.update rf.matchIndex server (max lastIncludedIndex (rf.matchIndex server))
      nextIndex := Function.update rf.nextIndex server (rf.getLastLogIndex + 1) }

/-- `log[start:]`, copied. -/
def logFrom (log : List (Log C)) (start : Int) : Option (List (Log C)) :=
  if start < 0 ∨ start > log.length then none else some (log.drop start.toNat)

/-- `CondInstallSnapshot`.  It stores the term in the dummy entry only, not in
`rf.lastIncludedTerm`. -/
def condInstallSnapshot (gob : Gob (RaftImage n C) σ) (rf : Raft n C σ)
    (lastIncludedTerm lastIncludedIndex : Int) (snapshot : List σ) :
    Option (Raft n C σ × Bool) :=
  if lastIncludedIndex ≤ rf.commitIndex then some (rf, false)
  else
    let newLog :=
      -- `make([]Log, 1)`; otherwise the suffix is kept, whatever the term of its first entry
      if rf.getLastLogIndex ≤ lastIncludedIndex then some [{}]
      else logFrom rf.log (rf.realIndex lastIncludedIndex)
    match newLog with
    | none => none
    | some [] => none
    | some (_ :: rest) =>
      let rf' :=
        { rf with
          log := { command := none, term := lastIncludedTerm } :: rest
          commitIndex := lastIncludedIndex
          lastApplied := lastIncludedIndex
          lastIncludedIndex := lastIncludedIndex }
      some ({ rf' with persister :=
        rf'.persister.saveStateAndSnapshot (rf'.raftState gob) snapshot }, true)

/-- `Snapshot`; the flag says whether the snapshot was stored. -/
def snapshot (gob : Gob (RaftImage n C) σ) (rf : Raft n C σ) (index : Int) (snapshot : List σ) :
    Option (Raft n C σ × Bool) :=
  if index ≤ rf.lastIncludedIndex then some (rf, false)
  else
    match logFrom rf.log (rf.realIndex index) with
    | none => none
    | some [] => none
    | some (dummy :: rest) =>
      let rf' :=
        { rf with
          log := { dummy with command := none } :: rest
          lastIncludedIndex := index
          lastIncludedTerm := dummy.term
          lastApplied := if index > rf.lastApplied then index else rf.lastApplied }
      some ({ rf' with persister :=
        rf'.persister.saveStateAndSnapshot (rf'.raftState gob) snapshot }, true)

/-! ## Applying -/

/-- The message for one index: `rf.log[rf.realIndex(index)].Command`. -/
def commandMsg (rf : Raft n C σ) (index : Int) : Option (ApplyMsg C σ) :=
  match logAt rf.log (rf.realIndex index) with
  | none => none
  | some e => some { commandValid := true, command := e.command, commandIndex := index }

/-- The locked section of `updateApplied`: the messages it is going to send. -/
def updateApplied (rf : Raft n C σ) : Option (Raft n C σ × List (ApplyMsg C σ)) :=
  -- no message unless `rf.lastApplied < rf.commitIndex`, but `lastApplied` is set in any case
  let count := (rf.commitIndex - rf.lastApplied).toNat
  match (List.range count).mapM fun i ↦ rf.commandMsg (rf.lastApplied + (i + 1 : Nat)) with
  | none => none
  | some msgs => some ({ rf with lastApplied := rf.commitIndex }, msgs)

end Raft

end Lab6824
