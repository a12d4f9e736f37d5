import Lab6824.Raft.Boundary

/-!
# Flat — runs without compaction

Where the service never calls `Snapshot`, no server ever has a boundary other than the initial one:
`lastIncludedIndex` is `0`, the dummy entry has term `0`, and the entry at logic index `i` is the
`i`-th after the dummy.
-/

namespace Lab6824

variable {n : Nat} {C σ : Type} {gob : Gob (RaftImage n C) σ}

/-- The service does not compact the log. -/
def NoCompaction : Action n C σ → Prop
  | .snapshot _ _ _ => False
  | _ => True

instance (a : Action n C σ) : Decidable (NoCompaction a) := by
  unfold NoCompaction
  induction a using Action.casesOn <;> infer_instance

theorem commitIndex_nonneg {s : Fin n} {rf rf' : Raft n C σ} (hsec : LockSection gob s rf rf')
    (hb : 0 ≤ rf.lastIncludedIndex) (hc : 0 ≤ rf.commitIndex) : 0 ≤ rf'.commitIndex := by
  have hdown := Raft.stepDown_commitIndex gob rf
  cases hsec with
  | idle | campaign | retire | lead | wake => exact hc
  | vote hv =>
      rcases Raft.requestVote_cases hv with ⟨_, rfl⟩ | ⟨_, _, _, _, rfl⟩
      · exact (hdown _).symm ▸ hc
      · exact (hdown _).symm ▸ hc
  | append hv =>
      rename_i args reply
      have hadown := Raft.appendStepDown_commitIndex gob rf args.term
      rcases (Raft.appendEntries_cases hv).2 with ⟨_, rfl⟩ | ⟨_, _, pli, _, hpli, _, _, rfl⟩
      · exact hadown.symm ▸ hc
      · have hlii := (SameBoundary.appendStepDown gob rf args.term).index
        unfold Raft.realIndex at hpli
        rw [Raft.mergeEntries_commitIndex, hadown]
        split <;> omega
  | appendReply hv =>
      rcases Raft.handleAppendEntriesReply_match rfl hv with ⟨_, hci⟩ | ⟨_, _, _, _, _, hci⟩
      · rw [hci, hdown]
        exact hc
      · rcases hci with hci | ⟨hci, hlt, _⟩
        · rw [hci, hdown]
          exact hc
        · rw [hdown] at hlt
          omega
  | install args =>
      rw [Raft.installSnapshot_rf, hdown]
      exact hc
  | snapshotReply index reply server =>
      unfold Raft.handleSnapshotReply
      split <;> exact hc
  | start command =>
      unfold Raft.start
      split <;> exact hc
  | apply hv =>
      rw [Raft.updateApplied_rf hv]
      exact hc
  | condInstall hv =>
      rcases Raft.condInstallSnapshot_cases hv with ⟨_, _, rfl⟩ | ⟨_, hlt, rest, rf₁, rfl, rfl⟩
      · exact hc
      · exact hc.trans hlt.le
  | snapshot hv =>
      rcases Raft.snapshot_cases hv with ⟨_, _, rfl⟩ | ⟨_, _, d, rest, rf₁, _, _, rfl, rfl⟩
      · exact hc
      · exact hc
  | restart hv =>
      unfold Raft.make Raft.readPersist at hv
      dsimp only at hv
      split at hv
      · cases hv
      · rw [← Option.some.inj hv]
        dsimp only
        split
        · exact le_refl _
        · split <;> exact le_refl _

/-- Nothing has been covered by a snapshot. -/
structure FlatInv (gob : Gob (RaftImage n C) σ) (w : World n C σ) : Prop extends
    BoundaryInv gob w where
  untaken : ∀ s index term data, .taken s index term data ∉ w.trace
  commit : ∀ t, 0 ≤ (w.nodes t).rf.commitIndex
  replied : ∀ env reply, (env, reply) ∈ w.snapshotReps → env ∈ w.snapshotReqs

namespace FlatInv

theorem init : FlatInv gob (World.init : World n C σ) where
  toBoundaryInv := BoundaryInv.init
  untaken := fun _ _ _ _ ↦ List.not_mem_nil
  commit := fun _ ↦ le_refl _
  replied := by
    intro env reply hrep
    cases hrep

theorem of_covered {w : World n C σ} (h : FlatInv gob w) {index term : Int} {data : List σ}
    (hc : CoveredBy w.trace index term data) : index = 0 ∧ term = 0 := by
  rcases hc with ⟨hi, ht, _⟩ | ⟨s, hmem⟩
  · exact ⟨hi, ht⟩
  · exact absurd hmem (h.untaken s index term data)

theorem lastIncludedIndex {w : World n C σ} (h : FlatInv gob w) (t : Fin n) :
    (w.nodes t).rf.lastIncludedIndex = 0 :=
  (h.of_covered (h.covered t)).1

/-- Without compaction there is no snapshot. -/
theorem blank_snapshot {w : World n C σ} (h : FlatInv gob w) (t : Fin n) :
    (w.nodes t).rf.lastIncludedIndex = 0 ∧ (w.nodes t).rf.persister.snapshot = [] := by
  rcases h.covered t with ⟨hindex, _, hdata⟩ | ⟨s, htaken⟩
  · exact ⟨hindex, hdata⟩
  · exact absurd htaken (h.untaken s _ _ _)

/-- The log is a dummy entry of term `0` and the entries. -/
theorem log_eq {w : World n C σ} (h : FlatInv gob w) (t : Fin n) :
    ∃ d, (w.nodes t).rf.log = d :: (w.nodes t).rf.log.tail ∧ d.term = 0 := by
  have hdummy := h.dummy t
  rw [(h.of_covered (h.covered t)).2] at hdummy
  cases hlog : (w.nodes t).rf.log with
  | nil =>
      rw [Raft.dummyTerm, hlog] at hdummy
      cases hdummy
  | cons d rest =>
      rw [Raft.dummyTerm, hlog] at hdummy
      exact ⟨d, rfl, Option.some.inj hdummy⟩

/-- The entry at logic index `i + 1` is the `i`-th after the dummy. -/
theorem entryAt {w : World n C σ} (h : FlatInv gob w) (t : Fin n) (i : Nat) :
    (w.nodes t).rf.entryAt (i + 1) = (w.nodes t).rf.log.tail[i]? := by
  obtain ⟨d, hlog, _⟩ := h.log_eq t
  unfold Raft.entryAt Raft.realIndex
  rw [h.lastIncludedIndex t, show ((i : Int) + 1 - 0) = ((i + 1 : Nat) : Int) by omega,
    logAt_natCast, hlog]
  rfl

/-- A snapshot that is on its way has index `0`, and no server accepts it. -/
theorem not_installed {w w' : World n C σ} {s : Fin n} {msg : ApplyMsg C σ} (h : FlatInv gob w)
    (hstep : Step gob w (.condInstallSnapshot s) w') (hch : (w.nodes s).applyCh = some msg) :
    msg.snapshotIndex ≤ (w.nodes s).rf.commitIndex := by
  cases hstep with
  | condInstallSnapshot _ hnd hch' hvalid _ =>
      subst hnd
      rw [hch, Option.some.injEq] at hch'
      subst hch'
      have hcov := h.pending s msg (Or.inr (Or.inr hch)) hvalid
      rw [(h.of_covered hcov).1]
      exact h.commit s

theorem step {w w' : World n C σ} {a : Action n C σ} (h : FlatInv gob w) (hok : NoCompaction a)
    (hstep : Step gob w a w') : FlatInv gob w' := by
  have hkeeps : InstallKeepsTerm w a := by
    cases a with
    | condInstallSnapshot s =>
        intro msg hch hnew
        have hle := h.not_installed hstep hch
        omega
    | _ => trivial
  refine ⟨h.toBoundaryInv.step hkeeps hstep, fun s index term data hmem ↦ ?_, fun t ↦ ?_,
    fun env reply hrep ↦ ?_⟩
  · cases hstep with
    | snapshot => exact hok
    | requestVote | condInstallSnapshot =>
        dsimp only at hmem
        split at hmem
        · exact h.untaken s index term data (by simpa using hmem)
        · exact h.untaken s index term data hmem
    | campaign | voteLead | sendCommand => exact h.untaken s index term data (by simpa using hmem)
    | _ => exact h.untaken s index term data hmem
  · exact commitIndex_nonneg (World.step_lockSection hstep t) (h.lastIncludedIndex t).ge (h.commit t)
  · cases hstep with
    | installSnapshot env' hnd henv =>
        rcases List.mem_cons.mp hrep with heq | hold
        · obtain ⟨rfl, _⟩ := Prod.mk.inj heq
          exact henv
        · exact h.replied env reply hold
    | roundSnapshot => exact List.mem_cons_of_mem _ (h.replied env reply hrep)
    | _ => exact h.replied env reply hrep

end FlatInv

end Lab6824
