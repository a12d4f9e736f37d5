import Lab6824.KvRaft.Server
import Lab6824.Lib.System
import Lab6824.Raft.Boundary

/-!
# Snapshots — compaction does not show in the key/value maps

One `KVServer` on top of its `Raft` object.  The server takes the messages from `applyCh` one after
the other, calls `CondInstallSnapshot` and `Snapshot` on the object, and starts again from the
persister after a crash; between its calls the other sections of Raft run.  `cs` is the committed
sequence of operations, and `Allowed cs` describes what `applyCh` may bring: the next command, a
snapshot that encodes a state of the sequence, or, after an accepted snapshot, commands that it
covers.
-/

namespace Lab6824.KvRaft

variable {n : Nat} {σ : Type}

/-- The bytes decode to the two maps of `kv`. -/
def Encodes (gob : Gob (RequestIds × Store) σ) (data : List σ) (kv : KVServer) : Prop :=
  gob.decode data = some (kv.lastRequestId, kv.m)

/-- A server and its Raft peer.  `highest`, `installed` and `stored` are notes of an observer: the
highest index delivered or installed and the highest index installed, both in this incarnation, and
all snapshots that `rf.Snapshot` has stored. -/
structure Peer (n : Nat) (σ : Type) where
  me : Fin n
  kv : KVServer := {}
  rf : Raft n Op σ
  /-- The index of the command that `fetchApply` is at, until it has looked at the size of the log. -/
  working : Option Int := none
  highest : Int := 0
  installed : Int := 0
  stored : List (Int × List σ) := []

inductive PeerAction (n : Nat) (σ : Type) where
  /-- `command := <-kv.applyCh` and what follows up to the snapshot check. -/
  | receive (msg : ApplyMsg Op σ)
  /-- The snapshot check; `full` is its outcome. -/
  | finish (full : Bool)
  /-- The other sections of Raft have led to `rf`. -/
  | raft (rf : Raft n Op σ)
  | restart

namespace Peer

variable (raftGob : Gob (RaftImage n Op) σ) (gob : Gob (RequestIds × Store) σ)

def start (me : Fin n) : Peer n σ where
  me := me
  rf := Raft.fresh me {}

/-- One iteration of `fetchApply`, without the answer for a waiting client.  A command that is no
`Op` makes the type assertion panic. -/
def fetchApply (p : Peer n σ) (msg : ApplyMsg Op σ) : Option (Peer n σ) :=
  if msg.commandValid then
    match msg.command with
    | none => none
    | some op =>
      some { p with
        kv := (p.kv.applyCommand op).1
        working := some msg.commandIndex
        highest := max p.highest msg.commandIndex }
  else if msg.snapshotValid then
    match p.rf.condInstallSnapshot raftGob msg.snapshotTerm msg.snapshotIndex msg.snapshot with
    | none => none
    | some (rf, true) =>
      some { p with
        rf := rf
        kv := p.kv.readSnapshot gob msg.snapshot
        highest := max p.highest msg.snapshotIndex
        installed := max p.installed msg.snapshotIndex }
    | some (rf, false) => some { p with rf := rf }
  else some p

/-- `kv.rf.Snapshot(index, kv.createSnapshot())` -/
def compact (p : Peer n σ) (index : Int) : Option (Peer n σ) :=
  let data := p.kv.createSnapshot gob
  match p.rf.snapshot raftGob index data with
  | none => none
  | some (rf, stored) =>
    some { p with
      rf := rf
      working := none
      stored := if stored then (index, data) :: p.stored else p.stored }

/-- The process ends and `StartKVServer` runs on the persister that it leaves. -/
def restart (p : Peer n σ) : Option (Peer n σ) :=
  match Raft.make raftGob p.me p.rf.persister.copy with
  | none => none
  | some rf =>
    some
      { me := p.me
        kv := KVServer.startKVServer gob rf.persister.snapshot
        rf := rf
        highest := rf.lastIncludedIndex
        stored := p.stored }

def step (p : Peer n σ) : PeerAction n σ → Option (Peer n σ)
  | .receive msg =>
    match p.working with
    | none => p.fetchApply raftGob gob msg
    | some _ => none
  | .finish full =>
    match p.working with
    | none => none
    | some index => if full then p.compact raftGob gob index else some { p with working := none }
  | .raft rf => some { p with rf := rf }
  | .restart => p.restart raftGob gob

end Peer

/-! ## What Raft does -/

/-- The sections of Raft that are not called by the service leave its snapshot alone, keep memory
and storage in agreement and do not take back a commit. -/
structure Undisturbed (raftGob : Gob (RaftImage n Op) σ) (rf rf' : Raft n Op σ) : Prop where
  index : rf'.lastIncludedIndex = rf.lastIncludedIndex
  snapshot : rf'.persister.snapshot = rf.persister.snapshot
  durable : Durable raftGob rf'
  commit_le : rf.commitIndex ≤ rf'.commitIndex

/-- What `Allowed` asks of Raft's own sections holds for all of them: a section is undisturbing, unless
it is one that the service calls, a restart, or an `AppendEntries` whose leader claims to have
committed more than it has sent, which may lower `commitIndex`. -/
theorem undisturbed_of_lockSection {raftGob : Gob (RaftImage n Op) σ} {s : Fin n}
    {rf rf' : Raft n Op σ} (hd : Durable raftGob rf) (hsec : LockSection raftGob s rf rf') :
    Undisturbed raftGob rf rf' ∨
      (∃ index data stored, rf.snapshot raftGob index data = some (rf', stored)) ∨
      (∃ t index data accepted,
        rf.condInstallSnapshot raftGob t index data = some (rf', accepted)) ∨
      Raft.make raftGob s rf.persister = some rf' ∨
      ∃ args reply, rf.appendEntries raftGob args = some (rf', reply) ∧
        args.prevLogIndex + args.entries.length < args.leaderCommit := by
  have hdurable := hd.lockSection hsec
  have quiet : SameBoundary rf rf' → rf.commitIndex ≤ rf'.commitIndex →
      Undisturbed raftGob rf rf' := fun hsame hle ↦ ⟨hsame.index, hsame.snapshot, hdurable, hle⟩
  cases hsec with
  | snapshot h => exact Or.inr (Or.inl ⟨_, _, _, h⟩)
  | condInstall h => exact Or.inr (Or.inr (Or.inl ⟨_, _, _, _, h⟩))
  | restart h => exact Or.inr (Or.inr (Or.inr (Or.inl h)))
  | idle | lead _ | wake | campaign _ | retire _ _ =>
      exact Or.inl (quiet ⟨rfl, rfl, rfl, rfl⟩ (le_refl _))
  | vote h =>
      refine Or.inl (quiet (SameBoundary.requestVote h) (le_of_eq ?_))
      rcases Raft.requestVote_cases h with ⟨_, rfl⟩ | ⟨_, _, _, _, rfl⟩
      · exact (Raft.stepDown_commitIndex raftGob rf _).symm
      · exact (Raft.stepDown_commitIndex raftGob rf _).symm
  | @append rf' args reply h =>
      by_cases hover : args.prevLogIndex + args.entries.length < args.leaderCommit
      · exact Or.inr (Or.inr (Or.inr (Or.inr ⟨args, reply, h, hover⟩)))
      · refine Or.inl (quiet (SameBoundary.appendEntries h) ?_)
        have hdown := Raft.appendStepDown_commitIndex raftGob rf args.term
        rcases (Raft.appendEntries_cases h).2 with ⟨_, rfl⟩ | ⟨_, _, pli, _, _, _, _, rfl⟩
        · exact hdown.ge
        · rw [Raft.mergeEntries_commitIndex, hdown]
          split <;> omega
  | appendReply h =>
      refine Or.inl (quiet (SameBoundary.handleAppendEntriesReply h) ?_)
      have hdown := Raft.stepDown_commitIndex raftGob rf
      rcases Raft.handleAppendEntriesReply_match rfl h with ⟨_, heq⟩ | ⟨_, _, _, _, _, heq | hup⟩
      · rw [heq, hdown]
      · rw [heq, hdown]
      · rw [hdown] at hup
        omega
  | install args =>
      rw [Raft.installSnapshot_rf] at quiet ⊢
      exact Or.inl (quiet (SameBoundary.stepDown raftGob rf _)
        (Raft.stepDown_commitIndex raftGob rf _).ge)
  | snapshotReply index reply server =>
      refine Or.inl (quiet (SameBoundary.handleSnapshotReply raftGob rf _ _ _) (le_of_eq ?_))
      unfold Raft.handleSnapshotReply
      split <;> rfl
  | start command =>
      refine Or.inl (quiet (SameBoundary.start hd.log_ne_nil command) (le_of_eq ?_))
      unfold Raft.start
      split <;> rfl
  | apply h =>
      rw [Raft.updateApplied_rf h] at quiet ⊢
      exact Or.inl (quiet ⟨rfl, rfl, rfl, rfl⟩ (le_refl _))

/-- The message carries the `i`-th operation of the sequence. -/
structure CommandMsg (cs : List Op) (i : Nat) (msg : ApplyMsg Op σ) : Prop where
  valid : msg.commandValid = true
  index : msg.commandIndex = (i + 1 : Nat)
  command : msg.command = cs[i]?
  lt : i < cs.length

/-- The message carries a snapshot of the state after the first `j` operations. -/
structure SnapshotMsg (gob : Gob (RequestIds × Store) σ) (cs : List Op) (j : Nat)
    (msg : ApplyMsg Op σ) : Prop where
  invalid : msg.commandValid = false
  valid : msg.snapshotValid = true
  index : msg.snapshotIndex = j
  le : j ≤ cs.length
  encodes : Encodes gob msg.snapshot (stateAfter cs j)

/-- What may happen to a server whose committed sequence is `cs`. -/
inductive Allowed (raftGob : Gob (RaftImage n Op) σ) (gob : Gob (RequestIds × Store) σ)
    (cs : List Op) (p : Peer n σ) : PeerAction n σ → Prop where
  /-- The next command, which Raft has committed. -/
  | next {msg i} (hmsg : CommandMsg cs i msg) (hnext : (i : Int) = p.highest)
      (hcommit : ((i + 1 : Nat) : Int) ≤ p.rf.commitIndex) : Allowed raftGob gob cs p (.receive msg)
  /-- A left-over command that an accepted snapshot covers. -/
  | leftover {msg i} (hmsg : CommandMsg cs i msg) (hcovered : ((i + 1 : Nat) : Int) ≤ p.installed) :
      Allowed raftGob gob cs p (.receive msg)
  | snapshot {msg j} (hmsg : SnapshotMsg gob cs j msg) : Allowed raftGob gob cs p (.receive msg)
  | finish (full : Bool) : Allowed raftGob gob cs p (.finish full)
  | raft {rf} (h : Undisturbed raftGob p.rf rf) : Allowed raftGob gob cs p (.raft rf)
  | restart : Allowed raftGob gob cs p .restart

/-! ## The invariant -/

/-- Memory and storage both hold states of the sequence. -/
structure PeerInv (raftGob : Gob (RaftImage n Op) σ) (gob : Gob (RequestIds × Store) σ)
    (cs : List Op) (p : Peer n σ) : Prop where
  nonneg : 0 ≤ p.rf.lastIncludedIndex
  included_le : p.rf.lastIncludedIndex ≤ p.highest
  highest_le : p.highest ≤ cs.length
  kv : p.kv = stateAfter cs p.highest.toNat
  installed_le : p.installed ≤ p.rf.lastIncludedIndex
  /-- What was delivered had been committed, or is in the snapshot that a restart found. -/
  committed : p.highest ≤ max p.rf.commitIndex p.rf.lastIncludedIndex
  saved : KVServer.startKVServer gob p.rf.persister.snapshot =
    stateAfter cs p.rf.lastIncludedIndex.toNat
  durable : Durable raftGob p.rf
  working : ∀ index, p.working = some index →
    index = p.highest ∨ index ≤ p.rf.lastIncludedIndex
  stored : ∀ r ∈ p.stored, 0 ≤ r.1 ∧ r.1 ≤ cs.length ∧ Encodes gob r.2 (stateAfter cs r.1.toNat)

theorem encodes_createSnapshot (gob : Gob (RequestIds × Store) σ) (kv : KVServer) :
    Encodes gob (kv.createSnapshot gob) kv :=
  gob.decode_encode _

theorem readSnapshot_of_encodes {gob : Gob (RequestIds × Store) σ} {data : List σ} {kv : KVServer}
    (h : Encodes gob data kv) (kv' : KVServer) : kv'.readSnapshot gob data = kv := by
  unfold KVServer.readSnapshot
  rw [h]

/-- An accepted snapshot is not behind the log: `rf.log[rf.realIndex(lastIncludedIndex):]` would be
out of range. -/
theorem included_le_of_accepted {raftGob : Gob (RaftImage n Op) σ} {rf rf' : Raft n Op σ}
    {t i : Int} {data : List σ} (hlog : rf.log ≠ [])
    (h : rf.condInstallSnapshot raftGob t i data = some (rf', true)) : rf.lastIncludedIndex ≤ i := by
  have hpos := List.length_pos_iff.mpr hlog
  by_contra hlt
  unfold Raft.condInstallSnapshot at h
  have hlast : ¬ rf.getLastLogIndex ≤ i := by
    unfold Raft.getLastLogIndex Raft.logicIndex
    omega
  have hreal : rf.realIndex i < 0 := by
    unfold Raft.realIndex
    omega
  have hfrom : Raft.logFrom rf.log (rf.realIndex i) = none := by
    unfold Raft.logFrom
    rw [if_pos (Or.inl hreal)]
  dsimp only at h
  split at h
  · cases h
  · rw [hfrom] at h
    cases h

namespace PeerInv

variable {raftGob : Gob (RaftImage n Op) σ} {gob : Gob (RequestIds × Store) σ} {cs : List Op}
  {p p' : Peer n σ}

theorem start (me : Fin n) : PeerInv raftGob gob cs (Peer.start me : Peer n σ) where
  nonneg := le_refl 0
  included_le := le_refl 0
  highest_le := Int.natCast_nonneg _
  kv := rfl
  installed_le := le_refl 0
  committed := le_refl 0
  saved := KVServer.readSnapshot_nil gob {}
  durable := Durable.fresh me
  working := fun _ h ↦ by cases h
  stored := fun _ hr ↦ absurd hr List.not_mem_nil

/-- A command that the maps already cover changes nothing. -/
theorem replay (h : PeerInv raftGob gob cs p) {i : Nat} {op : Op} (hop : cs[i]? = some op)
    (hi : (i : Int) < p.highest) : (p.kv.applyCommand op).1 = p.kv := by
  apply KVServer.applyCommand_of_le
  rw [h.kv, le_lastRequest_iff]
  exact Or.inr ⟨i, op, by omega, hop, rfl, le_refl _⟩

theorem receive_command (h : PeerInv raftGob gob cs p) {msg : ApplyMsg Op σ} {i : Nat}
    (hmsg : CommandMsg cs i msg)
    (hfits : (i : Int) = p.highest ∧ ((i + 1 : Nat) : Int) ≤ p.rf.commitIndex ∨
      ((i + 1 : Nat) : Int) ≤ p.installed)
    (hstep : p.fetchApply raftGob gob msg = some p') : PeerInv raftGob gob cs p' := by
  obtain ⟨op, hop⟩ : ∃ op, cs[i]? = some op := ⟨_, List.getElem?_eq_getElem hmsg.lt⟩
  unfold Peer.fetchApply at hstep
  rw [if_pos hmsg.valid, hmsg.command, hop] at hstep
  rw [← Option.some.inj hstep, hmsg.index]
  have hinc := h.included_le
  have hins := h.installed_le
  rcases hfits with ⟨hnext, hcommit⟩ | hcovered
  · have hmax : max p.highest ((i + 1 : Nat) : Int) = (i + 1 : Nat) := max_eq_right (by omega)
    have hkv : (p.kv.applyCommand op).1 = stateAfter cs (i + 1) := by
      rw [stateAfter_succ hop, h.kv, ← hnext, Int.toNat_natCast]
    have hle : p.rf.lastIncludedIndex ≤ ((i + 1 : Nat) : Int) := by omega
    rw [hmax]
    exact
      { h with
        included_le := hle
        highest_le := Int.ofNat_le.mpr hmsg.lt
        kv := hkv
        committed := le_max_of_le_left hcommit
        working := fun index hindex ↦ Or.inl (Option.some.inj hindex).symm }
  · have hmax : max p.highest ((i + 1 : Nat) : Int) = p.highest := max_eq_left (by omega)
    have hkv := h.replay hop (by omega)
    have hle : ((i + 1 : Nat) : Int) ≤ p.rf.lastIncludedIndex := by omega
    rw [hmax, hkv]
    exact { h with working := fun index hindex ↦ Or.inr (Option.some.inj hindex ▸ hle) }

theorem receive_snapshot (h : PeerInv raftGob gob cs p) {msg : ApplyMsg Op σ} {j : Nat}
    (hmsg : SnapshotMsg gob cs j msg) (hidle : p.working = none)
    (hstep : p.fetchApply raftGob gob msg = some p') : PeerInv raftGob gob cs p' := by
  unfold Peer.fetchApply at hstep
  rw [if_neg (by rw [hmsg.invalid]; exact Bool.false_ne_true), if_pos hmsg.valid, hmsg.index] at hstep
  split at hstep
  · cases hstep
  · rename_i rf hinstall
    have hinc := included_le_of_accepted h.durable.log_ne_nil hinstall
    have hdurable := h.durable.lockSection (.condInstall (s := p.me) hinstall)
    rcases Raft.condInstallSnapshot_cases hinstall with ⟨hno, _, _⟩ | ⟨_, hnew, rest, rf₁, rfl, rfl⟩
    · cases hno
    · have hcommitted := h.committed
      have hinstalled := h.installed_le
      have hmax : max p.highest (j : Int) = j := max_eq_right (by omega)
      have hmax' : max p.installed (j : Int) = j := max_eq_right (by omega)
      rw [← Option.some.inj hstep, hmax, hmax']
      have hstate := readSnapshot_of_encodes hmsg.encodes
      exact
        { nonneg := Int.natCast_nonneg j
          included_le := le_refl _
          highest_le := Int.ofNat_le.mpr hmsg.le
          kv := hstate p.kv
          installed_le := le_refl _
          committed := le_max_left _ _
          saved := hstate {}
          durable := hdurable
          working := fun index hindex ↦ by rw [hidle] at hindex; cases hindex
          stored := h.stored }
  · rename_i rf hinstall
    rcases Raft.condInstallSnapshot_cases hinstall with ⟨_, _, rfl⟩ | ⟨hyes, _⟩
    · rw [← Option.some.inj hstep]
      exact h
    · cases hyes

theorem compact (h : PeerInv raftGob gob cs p) {index : Int} (hwork : p.working = some index)
    (hstep : p.compact raftGob gob index = some p') : PeerInv raftGob gob cs p' := by
  unfold Peer.compact at hstep
  dsimp only at hstep
  split at hstep
  · cases hstep
  · rename_i rf stored hsnap
    have hdurable := h.durable.lockSection (.snapshot (s := p.me) hsnap)
    rw [← Option.some.inj hstep]
    rcases Raft.snapshot_cases hsnap with
      ⟨rfl, _, rfl⟩ | ⟨rfl, hnew, dummy, rest, rf₁, _, _, rfl, rfl⟩
    · exact { h with working := fun index hindex ↦ by cases hindex }
    · -- `rf.Snapshot` takes only an index that no snapshot covers: that of the last command
      have hindex : index = p.highest := (h.working index hwork).resolve_right (by omega)
      have hencodes := encodes_createSnapshot gob p.kv
      have hnonneg := h.nonneg
      have hle := h.highest_le
      rw [hindex]
      rw [hindex] at hdurable hnew
      have hpos : 0 ≤ p.highest := by omega
      rw [h.kv] at hencodes
      refine
        { nonneg := hpos
          included_le := le_refl _
          highest_le := hle
          kv := h.kv
          installed_le := h.installed_le.trans h.included_le
          committed := le_max_right _ _
          saved := ?_
          durable := hdurable
          working := fun index hindex ↦ by cases hindex
          stored := fun r hr ↦ ?_ }
      · exact (KVServer.readSnapshot_createSnapshot gob {} p.kv).trans h.kv
      · rcases List.mem_cons.mp hr with rfl | hold
        · rw [h.kv]
          exact ⟨hpos, hle, hencodes⟩
        · exact h.stored r hold

theorem restart (h : PeerInv raftGob gob cs p) (hstep : p.restart raftGob gob = some p') :
    PeerInv raftGob gob cs p' := by
  obtain ⟨rf, hmake, hrestored, hdurable⟩ := h.durable.make p.me
  unfold Peer.restart at hstep
  rw [Persister.copy_eq, hmake] at hstep
  rw [← Option.some.inj hstep]
  have hindex := hrestored.lastIncludedIndex
  have hsaved := h.saved
  rw [← hrestored.persister, ← hindex] at hsaved
  exact
    { nonneg := hindex ▸ h.nonneg
      included_le := le_refl _
      highest_le := hindex ▸ h.included_le.trans h.highest_le
      kv := hsaved
      installed_le := hindex ▸ h.nonneg
      committed := le_max_right _ _
      saved := hsaved
      durable := hdurable
      working := fun index hwork ↦ by cases hwork
      stored := h.stored }

theorem raft (h : PeerInv raftGob gob cs p) {rf : Raft n Op σ}
    (hrf : Undisturbed raftGob p.rf rf) : PeerInv raftGob gob cs { p with rf := rf } :=
  { h with
    nonneg := hrf.index ▸ h.nonneg
    included_le := hrf.index ▸ h.included_le
    installed_le := hrf.index ▸ h.installed_le
    committed := h.committed.trans (max_le_max hrf.commit_le hrf.index.ge)
    saved := by
      show KVServer.startKVServer gob rf.persister.snapshot = stateAfter cs rf.lastIncludedIndex.toNat
      rw [hrf.snapshot, hrf.index]
      exact h.saved
    durable := hrf.durable
    working := fun index hwork ↦ hrf.index ▸ h.working index hwork }

theorem step (p : Peer n σ) (a : PeerAction n σ) (p' : Peer n σ)
    (h : PeerInv raftGob gob cs p) (hok : Allowed raftGob gob cs p a)
    (hstep : p.step raftGob gob a = some p') : PeerInv raftGob gob cs p' := by
  unfold Peer.step at hstep
  cases hok with
  | next hmsg hnext hcommit =>
      dsimp only at hstep
      split at hstep
      · exact h.receive_command hmsg (Or.inl ⟨hnext, hcommit⟩) hstep
      · cases hstep
  | leftover hmsg hcovered =>
      dsimp only at hstep
      split at hstep
      · exact h.receive_command hmsg (Or.inr hcovered) hstep
      · cases hstep
  | snapshot hmsg =>
      dsimp only at hstep
      split at hstep
      · rename_i hidle
        exact h.receive_snapshot hmsg hidle hstep
      · cases hstep
  | finish full =>
      dsimp only at hstep
      split at hstep
      · cases hstep
      · rename_i index hwork
        split at hstep
        · exact h.compact hwork hstep
        · rw [← Option.some.inj hstep]
          exact { h with working := fun index hindex ↦ by cases hindex }
  | raft hrf => exact Option.some.inj hstep ▸ h.raft hrf
  | restart => exact h.restart hstep

end PeerInv

/-- In every run the maps are those after the highest index delivered or installed, and every
snapshot that was stored encodes the maps after its own index. -/
theorem snapshots_transparent (raftGob : Gob (RaftImage n Op) σ)
    (gob : Gob (RequestIds × Store) σ) (cs : List Op) (me : Fin n) (as : List (PeerAction n σ))
    (p : Peer n σ)
    (hok : Lib.Along (Peer.step raftGob gob) (Allowed raftGob gob cs) (Peer.start me) as)
    (hrun : Lib.run (Peer.step raftGob gob) (Peer.start me) as = some p) :
    p.kv = stateAfter cs p.highest.toNat ∧
      ∀ r ∈ p.stored, Encodes gob r.2 (stateAfter cs r.1.toNat) := by
  have hinv : PeerInv raftGob gob cs p :=
    Lib.run_invariant PeerInv.step (PeerInv.start me) hok hrun
  exact ⟨hinv.kv, fun r hr ↦ (hinv.stored r hr).2.2⟩

/-! ## A run with a left-over command -/

/-- A client appends `a`, `b` and `c` to one key. -/
def appends : List Op :=
  [{ key := "k", value := "a", op := .append, requestId := 1, uId := 7 },
    { key := "k", value := "b", op := .append, requestId := 2, uId := 7 },
    { key := "k", value := "c", op := .append, requestId := 3, uId := 7 }]

abbrev Bytes := RaftImage 1 Op ⊕ (RequestIds × Store)

abbrev raftCodec : Gob (RaftImage 1 Op) Bytes := Gob.left _ _

abbrev mapsCodec : Gob (RequestIds × Store) Bytes := Gob.right _ _

def commandAt (i : Nat) : ApplyMsg Op Bytes :=
  { commandValid := true, command := appends[i]?, commandIndex := (i + 1 : Nat) }

theorem commandMsg_at {i : Nat} (h : i < appends.length) : CommandMsg appends i (commandAt i) :=
  ⟨rfl, rfl, rfl, h⟩

def snapshotAt (j : Nat) : ApplyMsg Op Bytes :=
  { snapshotValid := true
    snapshot := (stateAfter appends j).createSnapshot mapsCodec
    snapshotIndex := j
    snapshotTerm := 1 }

theorem snapshotMsg_at {j : Nat} (h : j ≤ appends.length) :
    SnapshotMsg mapsCodec appends j (snapshotAt j) :=
  ⟨rfl, rfl, rfl, h, rfl⟩

/-- The peer has learned of the first two commands. -/
def twoCommitted : Raft 1 Op Bytes :=
  Raft.persist raftCodec
    { (Raft.fresh 0 {} : Raft 1 Op Bytes) with
      log := {} :: (appends.take 2).map fun op ↦ { command := some op, term := 1 }
      commitIndex := 2 }

/-- The first command is applied and compacted, a snapshot of all three is installed before the
second one arrives, and the server restarts. -/
def leftoverRun : List (PeerAction 1 Bytes) :=
  [.raft twoCommitted, .receive (commandAt 0), .finish true, .receive (snapshotAt 3),
    .receive (commandAt 1), .finish true, .restart]

theorem leftoverRun_allowed :
    Lib.Along (Peer.step raftCodec mapsCodec) (Allowed raftCodec mapsCodec appends)
      (Peer.start 0) leftoverRun := by
  refine Lib.along_cons_of_isSome (.raft ?_) (by decide +kernel) ?_
  · exact ⟨rfl, rfl, Durable.of_persist (List.cons_ne_nil _ _), by decide⟩
  refine Lib.along_cons_of_isSome (.next (commandMsg_at (by decide)) ?_ ?_) (by decide +kernel) ?_
  · decide +kernel
  · decide +kernel
  refine Lib.along_cons_of_isSome (.finish true) (by decide +kernel) ?_
  refine Lib.along_cons_of_isSome (.snapshot (snapshotMsg_at (by decide))) (by decide +kernel) ?_
  refine Lib.along_cons_of_isSome (.leftover (commandMsg_at (by decide)) ?_) (by decide +kernel) ?_
  · decide +kernel
  refine Lib.along_cons_of_isSome (.finish true) (by decide +kernel) ?_
  exact Lib.along_cons_of_isSome .restart (by decide +kernel) trivial

theorem snapshots_transparent_leftoverRun :
    ∃ p, Lib.run (Peer.step raftCodec mapsCodec) (Peer.start 0) leftoverRun = some p ∧
      p.highest = 3 ∧ p.kv.value "k" = "abc" ∧ p.kv = stateAfter appends 3 ∧
      p.stored.map Prod.fst = [1] ∧
      ∀ r ∈ p.stored, Encodes mapsCodec r.2 (stateAfter appends r.1.toNat) := by
  have hcheck : (Lib.run (Peer.step raftCodec mapsCodec) (Peer.start 0) leftoverRun).any
      (fun p ↦ decide (p.highest = 3 ∧ p.kv.value "k" = "abc" ∧ p.stored.map Prod.fst = [1])) =
        true := by
    decide +kernel
  obtain ⟨p, hrun, htest⟩ := Lib.exists_run_of_any hcheck
  obtain ⟨hhighest, hvalue, hstored⟩ := of_decide_eq_true htest
  obtain ⟨hkv, hencodes⟩ := snapshots_transparent raftCodec mapsCodec appends 0 leftoverRun p
    leftoverRun_allowed hrun
  rw [hhighest] at hkv
  exact ⟨p, hrun, hhighest, hvalue, hkv, hstored, hencodes⟩

end Lab6824.KvRaft
