import Lab6824.Raft.Install
import Lab6824.Raft.Safety

/-!
# Origins — where the commands that services are handed come from

Commands travel from `Start` into a log, from there into requests and other logs, to stable storage
and back, into the batch of `updateApplied` and onto `applyCh`.  Here compaction, crashes and leaders
of whatever kind are all allowed: what a service is handed was passed to `Start` before.
-/

namespace Lab6824

variable {n : Nat} {C σ : Type} {gob : Gob (RaftImage n C) σ}

/-! ## The dummy entry -/

/-- The first entry is a dummy that holds no command. -/
def BlankHead (log : List (Log C)) : Prop :=
  ∀ d ∈ log.head?, d.command = none

theorem blankHead_cons {d : Log C} {rest : List (Log C)} (h : d.command = none) :
    BlankHead (d :: rest) := by
  intro d' hd
  rw [← Option.some.inj hd]
  exact h

/-- What is appended to a log does not change its first entry. -/
theorem BlankHead.append {log : List (Log C)} (h : BlankHead log) (hne : log ≠ [])
    (rest : List (Log C)) : BlankHead (log ++ rest) := by
  intro d hd
  rw [List.head?_append_of_ne_nil _ hne] at hd
  exact h d hd

/-- In memory and in storage. -/
structure Raft.Blank (gob : Gob (RaftImage n C) σ) (rf : Raft n C σ) : Prop where
  log : BlankHead rf.log
  saved : ∀ im, gob.decode rf.persister.raftstate = some im → BlankHead im.log

namespace Raft.Blank

variable {rf rf' : Raft n C σ}

theorem fresh (s : Fin n) : (Raft.fresh s {} : Raft n C σ).Blank gob := by
  constructor
  · exact blankHead_cons rfl
  · intro im him
    rw [show (Raft.fresh s {} : Raft n C σ).persister.raftstate = [] from rfl, gob.decode_nil] at him
    cases him

/-- Neither the log nor what is saved has changed. -/
theorem of_same (h : rf.Blank gob) (hlog : rf'.log = rf.log)
    (hsaved : rf'.persister.raftstate = rf.persister.raftstate) : rf'.Blank gob :=
  ⟨hlog ▸ h.log, hsaved ▸ h.saved⟩

/-- What is saved is the state itself. -/
theorem of_saved (hlog : BlankHead rf.log)
    (hsaved : rf.persister.raftstate = gob.encode rf.image) : rf.Blank gob := by
  refine ⟨hlog, fun im him ↦ ?_⟩
  rw [hsaved, gob.decode_encode, Option.some.injEq] at him
  rw [← him]
  exact hlog

theorem stepDown (h : rf.Blank gob) (term : Int) : (rf.stepDown gob term).Blank gob := by
  rcases Raft.stepDown_cases gob rf term with ⟨_, he⟩ | ⟨_, he⟩
  · rw [he]
    exact of_saved h.log rfl
  · rw [he]
    exact h

theorem appendStepDown (h : rf.Blank gob) (term : Int) : (rf.appendStepDown gob term).Blank gob := by
  rcases Raft.appendStepDown_cases gob rf term with ⟨_, he⟩ | ⟨_, _, he⟩
  · rw [he]
    exact of_saved h.log rfl
  · rw [he]
    exact h

theorem mergeEntries (h : rf.Blank gob) (hne : rf.log ≠ []) (args : AppendEntriesArgs n C)
    (pli : Nat) : (rf.mergeEntries gob args pli).Blank gob := by
  obtain ⟨rf₁, ci, ch, he, hrf⟩ := Raft.mergeEntries_cases gob rf args pli
  rw [he]
  rcases hrf with rfl | rfl
  · exact h.of_same rfl rfl
  · -- the entries come after the first one
    refine of_same (of_saved (BlankHead.append ?_ ?_ _) rfl) rfl rfl
    · rw [BlankHead, List.head?_take, if_neg (Nat.succ_ne_zero pli)]
      exact h.log
    · rw [Ne, List.take_eq_nil_iff]
      exact not_or.mpr ⟨Nat.succ_ne_zero pli, hne⟩

theorem make {s : Fin n} (h : rf.Blank gob) (hv : Raft.make gob s rf.persister = some rf') :
    rf'.Blank gob := by
  unfold Raft.make at hv
  dsimp only at hv
  have hread : BlankHead ((Raft.fresh s rf.persister).readPersist gob rf.persister.raftstate).log
      ∧ ((Raft.fresh s rf.persister : Raft n C σ).readPersist gob rf.persister.raftstate).persister =
        rf.persister := by
    unfold Raft.readPersist
    split
    · exact ⟨blankHead_cons rfl, rfl⟩
    · split
      · exact ⟨blankHead_cons rfl, rfl⟩
      · rename_i im him
        exact ⟨h.saved im him, rfl⟩
  split at hv
  · cases hv
  · rename_i dummy rest hlog
    rw [← Option.some.inj hv]
    rw [hlog] at hread
    constructor
    · -- `Make` rewrites the term of the dummy entry only
      exact blankHead_cons (hread.1 dummy rfl)
    · show ∀ im, gob.decode (Raft.readPersist gob _ _).persister.raftstate = some im → _
      rw [hread.2]
      exact h.saved

theorem lockSection {s : Fin n} (h : rf.Blank gob) (hne : rf.log ≠ [])
    (hsec : LockSection gob s rf rf') : rf'.Blank gob := by
  cases hsec with
  | idle => exact h
  | campaign | retire => exact of_saved h.log rfl
  | vote hv =>
      rcases Raft.requestVote_cases hv with ⟨_, rfl⟩ | ⟨_, _, _, _, rfl⟩
      · exact h.stepDown _
      · exact of_saved (h.stepDown _).log rfl
  | lead | wake => exact h.of_same rfl rfl
  | append hv =>
      rcases (Raft.appendEntries_cases hv).2 with ⟨_, rfl⟩ | ⟨_, _, pli, _, _, _, _, rfl⟩
      · exact h.appendStepDown _
      · exact (h.appendStepDown _).mergeEntries (by rw [Raft.appendStepDown_log]; exact hne) _ _
  | appendReply hv =>
      obtain ⟨ni, mi, ci, ch, rfl⟩ := Raft.handleAppendEntriesReply_cases hv
      exact (h.stepDown _).of_same rfl rfl
  | install args =>
      rw [Raft.installSnapshot_rf]
      exact h.stepDown _
  | snapshotReply index reply server =>
      unfold Raft.handleSnapshotReply
      split
      · exact of_saved h.log rfl
      · exact h.of_same rfl rfl
  | start command =>
      unfold Raft.start
      split
      · exact of_saved (h.log.append hne _) rfl
      · exact h
  | apply hv =>
      rw [Raft.updateApplied_rf hv]
      exact h.of_same rfl rfl
  | condInstall hv =>
      rcases Raft.condInstallSnapshot_cases hv with ⟨_, _, rfl⟩ | ⟨_, _, rest, rf₁, rfl, rfl⟩
      · exact h
      · exact of_saved (blankHead_cons rfl) rfl
  | snapshot hv =>
      rcases Raft.snapshot_cases hv with ⟨_, _, rfl⟩ | ⟨_, _, d, rest, rf₁, _, _, rfl, rfl⟩
      · exact h
      · exact of_saved (blankHead_cons rfl) rfl
  | restart hv => exact h.make hv

end Raft.Blank

/-! ## Every command has an origin -/

/-- The commands of logs, requests and messages to the services satisfy `P`, dummy entries apart. -/
structure Origins (gob : Gob (RaftImage n C) σ) (P : Option C → Prop) (w : World n C σ) : Prop where
  durable : ∀ s, Durable gob (w.nodes s).rf
  blank : ∀ s, (w.nodes s).rf.Blank gob
  log : ∀ s, ∀ e ∈ (w.nodes s).rf.log.tail, P e.command
  sent : ∀ env ∈ w.appendReqs, ∀ e ∈ env.args.entries, P e.command
  batch : ∀ s, ∀ msg ∈ (w.nodes s).batch, msg.command = none ∨ P msg.command
  applied : ∀ s i c, .applied s i c ∈ w.trace → c = none ∨ P c

/-- An entry of a log is the dummy or one of those after it. -/
theorem Raft.Blank.command {rf : Raft n C σ} (h : rf.Blank gob) {P : Option C → Prop}
    (hlog : ∀ e ∈ rf.log.tail, P e.command) {e : Log C} (he : e ∈ rf.log) :
    e.command = none ∨ P e.command := by
  have hblank := h.log
  cases hrf : rf.log with
  | nil =>
      rw [hrf] at he
      cases he
  | cons d rest =>
      rw [hrf] at he hlog hblank
      rcases List.mem_cons.mp he with rfl | hrest
      · exact Or.inl (hblank e rfl)
      · exact Or.inr (hlog e hrest)

/-- After the dummy a merged log has entries of the old one and of the request. -/
theorem mem_tail_mergeLog {log entries : List (Log C)} {pli : Nat} (hlt : pli < log.length)
    {e : Log C} (he : e ∈ (mergeLog log pli entries).tail) : e ∈ log.tail ∨ e ∈ entries := by
  rcases mergeLog_cases hlt entries with ⟨heq, _⟩ | ⟨heq, _⟩
  · rw [heq] at he
    exact Or.inl he
  · have hpos : 0 < log.length := by omega
    obtain ⟨d, rest, rfl⟩ := List.exists_cons_of_ne_nil (List.ne_nil_of_length_pos hpos)
    rw [heq, List.take_succ_cons, List.cons_append, List.tail_cons] at he
    rcases List.mem_append.mp he with he | he
    · exact Or.inl (List.mem_of_mem_take he)
    · exact Or.inr he

namespace Origins

variable {P Q : Option C → Prop} {w w' : World n C σ} {a : Action n C σ}

theorem init : Origins gob P (World.init : World n C σ) where
  durable := Durable.fresh
  blank := Raft.Blank.fresh
  log := fun _ _ he ↦ absurd he List.not_mem_nil
  sent := fun _ henv ↦ absurd henv List.not_mem_nil
  batch := fun _ _ hmsg ↦ absurd hmsg List.not_mem_nil
  applied := fun _ _ _ hmem ↦ absurd hmem List.not_mem_nil

theorem mono (h : Origins gob P w) (hPQ : ∀ c, P c → Q c) : Origins gob Q w where
  durable := h.durable
  blank := h.blank
  log := fun s e he ↦ hPQ _ (h.log s e he)
  sent := fun env henv e he ↦ hPQ _ (h.sent env henv e he)
  batch := fun s msg hmsg ↦ (h.batch s msg hmsg).imp id (hPQ _)
  applied := fun s i c hmem ↦ (h.applied s i c hmem).imp id (hPQ _)

theorem log_step (h : Origins gob P w)
    (hnew : ∀ s command, a = .start s command → (w.nodes s).rf.state = .leader → P command)
    (hstep : Step gob w a w') (t : Fin n) : ∀ e ∈ (w'.nodes t).rf.log.tail, P e.command := by
  have hold := h.log t
  have hindex := step_indices hstep h.durable t
  generalize (w'.nodes t).rf = rf' at hindex
  intro e he
  cases hindex with
  | same _ hi | committed _ _ _ _ _ _ hi | applied _ _ _ hi =>
      rw [(indices_eq.mp hi).1] at he
      exact hold e he
  | restarted _ hres =>
      obtain ⟨d, hlog, _⟩ := hres.log
      rw [hlog] at he
      exact hold e he
  | appended command ha hlead _ hi =>
      rw [(indices_eq.mp hi).1, List.tail_append_of_ne_nil (h.durable t).log_ne_nil] at he
      rcases List.mem_append.mp he with he | he
      · exact hold e he
      · rw [List.mem_singleton.mp he]
        exact hnew t command ha hlead
  | merged env pli _ _ henv hacc _ hi =>
      rw [(indices_eq.mp hi).1] at he
      rcases mem_tail_mergeLog hacc.lt he with he | he
      · exact hold e he
      · exact h.sent env henv e he
  | installed msg _ _ _ _ hbase _ hi =>
      rw [(indices_eq.mp hi).1, List.tail_cons, Raft.keptAfter_eq_drop hbase,
        ← List.drop_tail] at he
      exact hold e (List.mem_of_mem_drop he)
  | compacted i data dummy rest _ _ hdrop _ hi =>
      have hrest : rest = (w.nodes t).rf.log.tail.drop ((w.nodes t).rf.realIndex i).toNat := by
        rw [List.drop_tail, ← List.tail_drop, hdrop]
        rfl
      rw [(indices_eq.mp hi).1, List.tail_cons, hrest] at he
      exact hold e (List.mem_of_mem_drop he)

theorem sent_step (h : Origins gob P w) (hstep : Step gob w a w')
    {env : Envelope n (AppendEntriesArgs n C)} (henv : env ∈ w'.appendReqs) :
    ∀ e ∈ env.args.entries, P e.command := by
  rcases step_appendReqs hstep henv with hold | ⟨s, _, _, hround⟩
  · exact h.sent env hold
  · -- a new request carries what comes after the previous entry, so never the dummy
    obtain ⟨_, _, index, prev, _, _, hargs⟩ := Raft.onRound_append hround
    intro e he
    rw [hargs, ← List.drop_tail] at he
    exact h.log s e (List.mem_of_mem_drop he)

theorem batch_step (h : Origins gob P w) (hstep : Step gob w a w') {t : Fin n}
    {msg : ApplyMsg C σ} (hmsg : msg ∈ (w'.nodes t).batch) :
    msg.command = none ∨ P msg.command := by
  rcases step_batch hstep hmsg with hold | ⟨index, e, _, _, he, rfl⟩
  · exact h.batch t msg hold
  · exact (h.blank t).command (h.log t) (List.mem_of_getElem? (logAt_eq_some he).2.2)

theorem applied_step (h : Origins gob P w) (hstep : Step gob w a w') {s : Fin n} {i : Int}
    {c : Option C} (hmem : .applied s i c ∈ w'.trace) : c = none ∨ P c := by
  rcases step_applied hstep hmem with hold | ⟨msg, hmsg, _, rfl⟩
  · exact h.applied s i c hold
  · exact h.batch s msg hmsg

/-- Only `Start` brings new commands, and only at a server that takes itself for the leader. -/
theorem step (h : Origins gob P w)
    (hnew : ∀ s command, a = .start s command → (w.nodes s).rf.state = .leader → P command)
    (hstep : Step gob w a w') : Origins gob P w' where
  durable := fun t ↦ (h.durable t).lockSection (World.step_lockSection hstep t)
  blank := fun t ↦ (h.blank t).lockSection (h.durable t).log_ne_nil (World.step_lockSection hstep t)
  log := h.log_step hnew hstep
  sent := fun _ henv ↦ h.sent_step hstep henv
  batch := fun _ _ hmsg ↦ h.batch_step hstep hmsg
  applied := fun _ _ _ hmem ↦ h.applied_step hstep hmem

end Origins

/-! ## Validity -/

section Started

variable [DecidableEq C] [DecidableEq σ]

/-- In the run a server that was leader at that moment was passed the command. -/
def Started (gob : Gob (RaftImage n C) σ) (as : List (Action n C σ)) (command : Option C) : Prop :=
  ∃ pre s v, pre ++ [.start s command] <+: as ∧
    Lib.run (World.step gob) World.init pre = some v ∧ (v.nodes s).rf.state = .leader

theorem Started.mono {as as' : List (Action n C σ)} {command : Option C}
    (h : Started gob as command) (hle : as <+: as') : Started gob as' command := by
  obtain ⟨pre, s, v, hpre, hrest⟩ := h
  exact ⟨pre, s, v, hpre.trans hle, hrest⟩

theorem Origins.run {as : List (Action n C σ)} {w : World n C σ}
    (hrun : Lib.run (World.step gob) World.init as = some w) : Origins gob (Started gob as) w := by
  induction as using List.reverseRecOn generalizing w with
  | nil =>
      rw [Lib.run_nil, Option.some.injEq] at hrun
      exact hrun ▸ Origins.init
  | append_singleton as a ih =>
      obtain ⟨v, hv, hstep⟩ := Lib.run_concat.mp hrun
      apply ((ih hv).mono fun c hc ↦ hc.mono (List.prefix_append _ _)).step _
        (World.step_inv hstep)
      rintro s command rfl hlead
      exact ⟨as, s, v, List.prefix_refl _, hv, hlead⟩

end Started

/-- In every run, whatever is compacted, lost or restarted and whoever leads: a command that a server
puts on its `applyCh` was passed to `Start` before, at a server that was leader then. -/
theorem applied_was_started [DecidableEq C] [DecidableEq σ] {gob : Gob (RaftImage n C) σ}
    {w : World n C σ} {as : List (Action n C σ)}
    (hrun : Lib.run (World.step gob) World.init as = some w) {s : Fin n} {i : Int} {c : C}
    (happlied : .applied s i (some c) ∈ w.trace) :
    ∃ pre s' v, pre ++ [.start s' (some c)] <+: as ∧
      Lib.run (World.step gob) World.init pre = some v ∧ (v.nodes s').rf.state = .leader :=
  ((Origins.run hrun).applied s i (some c) happlied).resolve_left
    (Option.some_ne_none c)

/-- Even in `overwriteRun`, where two servers apply different commands at one index. -/
theorem applied_was_started_overwriteRun :
    ∃ pre s v, pre ++ [.start s (some 20)] <+: overwriteRun ∧
      Lib.run (World.step (Gob.plain (RaftImage 3 Nat))) World.init pre = some v ∧
      (v.nodes s).rf.state = .leader := by
  have hcheck : (Lib.run (World.step (Gob.plain (RaftImage 3 Nat))) World.init overwriteRun).any
      (fun w ↦ decide (.applied 1 1 (some 20) ∈ w.trace)) = true := by
    decide +kernel
  obtain ⟨w, hrun, hw⟩ := Lib.exists_run_of_any hcheck
  exact applied_was_started hrun (of_decide_eq_true hw)

end Lab6824
