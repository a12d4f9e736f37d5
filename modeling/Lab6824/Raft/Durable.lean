import Lab6824.Raft.Sections

/-!
# Durable — memory and stable storage agree whenever the lock is free

`Durable gob rf` says that the image in the persister of `rf` holds the same persistent state as
`rf` itself.  Every lock-held section keeps it: a section that changes one of the five saved values
calls `persist` or `SaveStateAndSnapshot` afterwards, the others leave the values and the persister
alone.  Only the dummy entry may differ, since `Make` rewrites its term without saving.
-/

namespace Lab6824

variable {n : Nat} {C σ : Type} {gob : Gob (RaftImage n C) σ}

/-- The image agrees with the running server on everything but the dummy entry. -/
structure Agrees (im : RaftImage n C) (rf : Raft n C σ) : Prop where
  currentTerm : im.currentTerm = rf.currentTerm
  votedFor : im.votedFor = rf.votedFor
  lastIncludedIndex : im.lastIncludedIndex = rf.lastIncludedIndex
  lastIncludedTerm : im.lastIncludedTerm = rf.lastIncludedTerm
  entries : im.log.tail = rf.log.tail
  image_ne_nil : im.log ≠ []
  log_ne_nil : rf.log ≠ []

/-- What `Make` finds when nothing has been saved yet. -/
def bootImage : RaftImage n C where
  currentTerm := 0
  votedFor := none
  lastIncludedIndex := 0
  lastIncludedTerm := 0
  log := [{}]

def Durable (gob : Gob (RaftImage n C) σ) (rf : Raft n C σ) : Prop :=
  ∃ im, Agrees im rf ∧
    (rf.persister.raftstate = [] ∧ im = bootImage ∨ rf.persister.raftstate = gob.encode im)

/-- What a restart of server `s` keeps: the persister, the persistent fields and the entries after
the dummy, whose term is set to `lastIncludedTerm`. -/
structure Restored (s : Fin n) (rf rf' : Raft n C σ) : Prop where
  me : rf'.me = s
  persister : rf'.persister = rf.persister
  currentTerm : rf'.currentTerm = rf.currentTerm
  votedFor : rf'.votedFor = rf.votedFor
  lastIncludedIndex : rf'.lastIncludedIndex = rf.lastIncludedIndex
  lastIncludedTerm : rf'.lastIncludedTerm = rf.lastIncludedTerm
  log : ∃ dummy, rf'.log = dummy :: rf.log.tail ∧ dummy.term = rf.lastIncludedTerm
  state : rf'.state = .follower
  commitIndex : rf'.commitIndex = 0
  lastApplied : rf'.lastApplied = rf.lastIncludedIndex

namespace Durable

theorem log_ne_nil {rf : Raft n C σ} (h : Durable gob rf) : rf.log ≠ [] := by
  obtain ⟨im, ha, _⟩ := h
  exact ha.log_ne_nil

/-- A state whose own image has just been saved is durable. -/
theorem of_saved {rf : Raft n C σ} (hlog : rf.log ≠ [])
    (hsaved : rf.persister.raftstate = gob.encode rf.image) : Durable gob rf :=
  ⟨rf.image, ⟨rfl, rfl, rfl, rfl, rfl, hlog, hlog⟩, Or.inr hsaved⟩

theorem of_persist {rf : Raft n C σ} (hlog : rf.log ≠ []) :
    Durable gob (rf.persist gob) :=
  of_saved hlog rfl

/-- Writes to volatile fields need no save. -/
theorem of_volatile {rf rf' : Raft n C σ} (h : Durable gob rf)
    (hps : rf'.persister = rf.persister) (him : rf'.image = rf.image) : Durable gob rf' := by
  obtain ⟨im, ha, hsaved⟩ := h
  simp only [Raft.image, RaftImage.mk.injEq] at him
  obtain ⟨h1, h2, h3, h4, h5⟩ := him
  refine ⟨im, ⟨?_, ?_, ?_, ?_, ?_, ha.image_ne_nil, ?_⟩, hps ▸ hsaved⟩
  · rw [h1, ha.currentTerm]
  · rw [h2, ha.votedFor]
  · rw [h3, ha.lastIncludedIndex]
  · rw [h4, ha.lastIncludedTerm]
  · rw [h5, ha.entries]
  · rw [h5]
    exact ha.log_ne_nil

theorem toFollower {rf : Raft n C σ} (h : Durable gob rf) (term : Int) (v : Option (Fin n)) :
    Durable gob (rf.toFollower gob term v) := by
  unfold Raft.toFollower
  exact of_persist h.log_ne_nil

theorem stepDown {rf : Raft n C σ} (h : Durable gob rf) (term : Int) :
    Durable gob (rf.stepDown gob term) := by
  rcases Raft.stepDown_cases gob rf term with ⟨_, he⟩ | ⟨_, he⟩
  · rw [he]
    exact h.toFollower term none
  · rw [he]
    exact h

theorem appendStepDown {rf : Raft n C σ} (h : Durable gob rf) (term : Int) :
    Durable gob (rf.appendStepDown gob term) := by
  rcases Raft.appendStepDown_cases gob rf term with ⟨_, he⟩ | ⟨_, _, he⟩
  · rw [he]
    exact h.toFollower term none
  · rw [he]
    exact h

theorem mergeEntries {rf : Raft n C σ} (h : Durable gob rf) (args : AppendEntriesArgs n C)
    (pli : Nat) : Durable gob (rf.mergeEntries gob args pli) := by
  obtain ⟨rf₁, ci, ch, he, hrf⟩ := Raft.mergeEntries_cases gob rf args pli
  rw [he]
  rcases hrf with rfl | rfl
  · exact h.of_volatile rfl rfl
  · have hlog : rf.log.take (pli + 1) ++ args.entries ≠ [] := by
      have hne := h.log_ne_nil
      cases hl : rf.log with
      | nil => exact absurd hl hne
      | cons d es => simp
    exact of_volatile (of_persist hlog) rfl rfl

/-- Restarting from a durable state gives back the persistent state, and the new state is durable
again. -/
theorem make {rf : Raft n C σ} (h : Durable gob rf) (s : Fin n) :
    ∃ rf', Raft.make gob s rf.persister = some rf' ∧ Restored s rf rf' ∧ Durable gob rf' := by
  obtain ⟨im, ha, hsaved⟩ := h
  -- what `readPersist` restores, whichever of its branches is taken
  have hread : (Raft.fresh s rf.persister).readPersist gob rf.persister.raftstate =
      { (Raft.fresh s rf.persister : Raft n C σ) with
        currentTerm := im.currentTerm
        votedFor := im.votedFor
        lastIncludedIndex := im.lastIncludedIndex
        lastIncludedTerm := im.lastIncludedTerm
        lastApplied := im.lastIncludedIndex
        log := im.log } := by
    unfold Raft.readPersist
    rcases hsaved with ⟨hnil, rfl⟩ | hsaved
    · rw [hnil, if_pos (show ([] : List σ).length < 1 from Nat.zero_lt_one)]
      rfl
    · have hpos := List.length_pos_iff.mpr (gob.encode_ne_nil im)
      rw [hsaved, if_neg (by omega), gob.decode_encode]
  unfold Raft.make
  rw [hread]
  cases hlog : im.log with
  | nil => exact absurd hlog ha.image_ne_nil
  | cons d es =>
      have htail : es = rf.log.tail := by
        rw [← ha.entries, hlog]
        rfl
      refine ⟨_, rfl, ⟨rfl, rfl, ha.currentTerm, ha.votedFor, ha.lastIncludedIndex,
        ha.lastIncludedTerm, ?_, rfl, rfl, ha.lastIncludedIndex⟩, ?_⟩
      · rw [htail, ← ha.lastIncludedTerm]
        exact ⟨_, rfl, rfl⟩
      · refine ⟨im, ⟨rfl, rfl, rfl, rfl, ?_, ha.image_ne_nil, List.cons_ne_nil _ _⟩, hsaved⟩
        rw [hlog]
        rfl

/-- Every section keeps memory and storage in agreement. -/
theorem lockSection {s : Fin n} {rf rf' : Raft n C σ} (h : Durable gob rf)
    (hsec : LockSection gob s rf rf') : Durable gob rf' := by
  cases hsec with
  | idle => exact h
  | campaign _ => exact of_persist h.log_ne_nil
  | vote hv =>
      rcases Raft.requestVote_cases hv with ⟨_, rfl⟩ | ⟨_, _, _, _, rfl⟩
      · exact h.stepDown _
      · exact of_persist (h.stepDown _).log_ne_nil
  | retire term _ => exact h.toFollower term none
  | lead _ => exact h.of_volatile rfl rfl
  | append hv =>
      rcases (Raft.appendEntries_cases hv).2 with ⟨_, rfl⟩ | ⟨_, _, pli, _, _, _, _, rfl⟩
      · exact h.appendStepDown _
      · exact (h.appendStepDown _).mergeEntries _ _
  | appendReply hv =>
      obtain ⟨ni, mi, ci, ch, rfl⟩ := Raft.handleAppendEntriesReply_cases hv
      exact (h.stepDown _).of_volatile rfl rfl
  | install args =>
      rw [Raft.installSnapshot_rf]
      exact h.stepDown _
  | snapshotReply index reply server =>
      unfold Raft.handleSnapshotReply
      split
      · exact h.toFollower _ none
      · exact h.of_volatile rfl rfl
  | start command =>
      unfold Raft.start
      split
      · exact of_persist (by simp)
      · exact h
  | wake => exact h.of_volatile rfl rfl
  | apply hv =>
      rw [Raft.updateApplied_rf hv]
      exact h.of_volatile rfl rfl
  | condInstall hv =>
      rcases Raft.condInstallSnapshot_cases hv with ⟨_, _, rfl⟩ | ⟨_, _, rest, rf₁, rfl, rfl⟩
      · exact h
      · exact of_saved (List.cons_ne_nil _ _) rfl
  | snapshot hv =>
      rcases Raft.snapshot_cases hv with ⟨_, _, rfl⟩ | ⟨_, _, d, rest, rf₁, _, _, rfl, rfl⟩
      · exact h
      · exact of_saved (List.cons_ne_nil _ _) rfl
  | restart hv =>
      obtain ⟨rf₂, hmake, _, hd⟩ := h.make s
      rw [hmake, Option.some.injEq] at hv
      exact hv ▸ hd

theorem fresh (s : Fin n) : Durable gob (Raft.fresh s {} : Raft n C σ) :=
  ⟨bootImage, ⟨rfl, rfl, rfl, rfl, rfl, List.cons_ne_nil _ _, List.cons_ne_nil _ _⟩,
    Or.inl ⟨rfl, rfl⟩⟩

/-- In every run every server is durable whenever its lock is free. -/
theorem run [DecidableEq C] [DecidableEq σ] {w : World n C σ} {as : List (Action n C σ)}
    (hrun : Lib.run (World.step gob) World.init as = some w) (s : Fin n) :
    Durable gob (w.nodes s).rf :=
  World.local_invariant (P := fun _ rf ↦ Durable gob rf) fresh
    (fun _ _ _ h hsec ↦ h.lockSection hsec) hrun s

end Durable

end Lab6824
