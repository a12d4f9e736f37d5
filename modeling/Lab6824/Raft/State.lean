import Mathlib.Data.List.Basic
import Mathlib.Data.Fin.Basic

/-!
# State — the data of one Raft peer

The structures of `raft/raft.go` and `raft/persister.go`: log entries, the arguments and replies of
the three RPCs, the messages for `applyCh`, the persister and the `Raft` object itself.  `n` is
`len(peers)` and a server is a `Fin n`; `C` is the type of the commands handed to `Start`
(`interface{}` in the source, `none` is `nil`); `σ` is the type of a byte.

Timers and the `aeChan` tokens are left out: they decide only when an election or a round starts,
and in `Cluster` either may start at any moment.
-/

namespace Lab6824

/-- The values of `rf.state`. -/
inductive Role where
  | follower
  | candidate
  | leader
  deriving DecidableEq, Repr

structure Log (C : Type) where
  command : Option C := none
  term : Int := 0
  deriving DecidableEq, Repr

structure RequestVoteArgs (n : Nat) where
  term : Int
  candidateId : Fin n
  lastLogIndex : Int
  lastLogTerm : Int
  deriving DecidableEq, Repr

structure RequestVoteReply where
  term : Int := 0
  voteGranted : Bool := false
  /-- Filled in by `sendRequestVote` once the call has returned. -/
  sendTerm : Int := 0
  deriving DecidableEq, Repr

structure AppendEntriesArgs (n : Nat) (C : Type) where
  term : Int
  leaderId : Fin n
  prevLogIndex : Int
  prevLogTerm : Int
  entries : List (Log C)
  leaderCommit : Int
  deriving DecidableEq, Repr

structure AppendEntriesReply where
  /-- Filled in by `sendAppendEntries` once the call has returned. -/
  sendTerm : Int := 0
  term : Int := 0
  success : Bool := false
  conflictTerm : Int := 0
  conflictIndex : Int := 0
  deriving DecidableEq, Repr

structure InstallSnapshotArgs (n : Nat) (σ : Type) where
  term : Int
  leaderId : Fin n
  lastIncludedIndex : Int
  lastIncludedTerm : Int
  data : List σ
  deriving DecidableEq, Repr

structure InstallSnapshotReply where
  term : Int := 0
  deriving DecidableEq, Repr

structure ApplyMsg (C σ : Type) where
  commandValid : Bool := false
  command : Option C := none
  commandIndex : Int := 0
  snapshotValid : Bool := false
  snapshot : List σ := []
  snapshotTerm : Int := 0
  snapshotIndex : Int := 0
  deriving DecidableEq, Repr

/-! ## Stable storage -/

/-- The five values that `raftState` encodes, in its order. -/
structure RaftImage (n : Nat) (C : Type) where
  currentTerm : Int
  votedFor : Option (Fin n)
  lastIncludedIndex : Int
  lastIncludedTerm : Int
  log : List (Log C)
  deriving DecidableEq, Repr

/-- What the code relies on of `encoding/gob`, which is not part of the repository: decoding gives
back what was encoded, and there is nothing to decode in no bytes. -/
structure Gob (α σ : Type) where
  encode : α → List σ
  decode : List σ → Option α
  decode_encode : ∀ x, decode (encode x) = some x
  decode_nil : decode [] = none

theorem Gob.encode_ne_nil {α σ : Type} (gob : Gob α σ) (x : α) : gob.encode x ≠ [] := by
  intro hnil
  have hdecode := gob.decode_encode x
  rw [hnil, gob.decode_nil] at hdecode
  cases hdecode

/-- The simplest such codec, which the concrete runs below use: one symbol stands for one value. -/
def Gob.plain (α : Type) : Gob α α where
  encode x := [x]
  decode l := l.head?
  decode_encode := fun _ ↦ rfl
  decode_nil := rfl

/-- Two such codecs that write the same kind of bytes. -/
def Gob.left (α β : Type) : Gob α (α ⊕ β) where
  encode x := [.inl x]
  decode l := l.head?.bind Sum.getLeft?
  decode_encode := fun _ ↦ rfl
  decode_nil := rfl

def Gob.right (α β : Type) : Gob β (α ⊕ β) where
  encode x := [.inr x]
  decode l := l.head?.bind Sum.getRight?
  decode_encode := fun _ ↦ rfl
  decode_nil := rfl

structure Persister (σ : Type) where
  raftstate : List σ := []
  snapshot : List σ := []
  deriving DecidableEq, Repr

namespace Persister

variable {σ : Type}

def saveRaftState (ps : Persister σ) (state : List σ) : Persister σ :=
  { ps with raftstate := state }

def saveStateAndSnapshot (_ps : Persister σ) (state snapshot : List σ) : Persister σ :=
  { raftstate := state, snapshot := snapshot }

def copy (ps : Persister σ) : Persister σ :=
  { raftstate := ps.raftstate, snapshot := ps.snapshot }

@[simp] theorem copy_eq (ps : Persister σ) : ps.copy = ps := rfl

end Persister

/-! ## The peer -/

/-- The fields of `rf` that the handlers read and write.  `votedFor = none` is the source's `-1`;
`commitChan` says whether the one-slot channel of that name holds its token. -/
structure Raft (n : Nat) (C σ : Type) where
  me : Fin n
  persister : Persister σ
  currentTerm : Int
  votedFor : Option (Fin n)
  log : List (Log C)
  lastIncludedIndex : Int
  lastIncludedTerm : Int
  lastApplied : Int
  commitIndex : Int
  nextIndex : Fin n → Int
  matchIndex : Fin n → Int
  state : Role
  commitChan : Bool

variable {n : Nat} {C σ : Type}

/-- `log[i]` of the source: a negative index or one past the end panics. -/
def logAt (log : List (Log C)) (i : Int) : Option (Log C) :=
  if i < 0 then none else log[i.toNat]?

theorem logAt_natCast (log : List (Log C)) (i : Nat) : logAt log (i : Int) = log[i]? := by
  unfold logAt
  rw [if_neg (by omega), Int.toNat_natCast]

theorem logAt_eq_some {log : List (Log C)} {i : Int} {e : Log C} (h : logAt log i = some e) :
    0 ≤ i ∧ i < log.length ∧ log[i.toNat]? = some e := by
  unfold logAt at h
  split at h
  · cases h
  · rename_i hneg
    have hlt := (List.getElem?_eq_some_iff.mp h).1
    exact ⟨by omega, by omega, h⟩

namespace Raft

/-- Transfer logic index into real index. -/
def realIndex (rf : Raft n C σ) (logicIndex : Int) : Int :=
  logicIndex - rf.lastIncludedIndex

/-- Transfer real index into logic index. -/
def logicIndex (rf : Raft n C σ) (realIndex : Int) : Int :=
  realIndex + rf.lastIncludedIndex

def getLastLogIndex (rf : Raft n C σ) : Int :=
  rf.logicIndex (rf.log.length - 1)

/-- The entry at a logic index, if the log still holds it (the dummy included). -/
def entryAt (rf : Raft n C σ) (index : Int) : Option (Log C) :=
  logAt rf.log (rf.realIndex index)

def image (rf : Raft n C σ) : RaftImage n C where
  currentTerm := rf.currentTerm
  votedFor := rf.votedFor
  lastIncludedIndex := rf.lastIncludedIndex
  lastIncludedTerm := rf.lastIncludedTerm
  log := rf.log

end Raft

end Lab6824
