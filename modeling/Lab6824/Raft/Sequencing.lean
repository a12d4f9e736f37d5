import Lab6824.Lib.Sequencer
import Lab6824.Raft.Delivery
import Lab6824.Raft.Leaders
import Lab6824.Raft.Origins

/-!
# Sequencing — to the services the cluster is a sequencer

`Lib.Sequencer` says what a replicated log is for.  The cluster refines it in runs that meet the
conditions of `Leaders`: what services pass to `Start` is submitted, the sequence is the longest log
that any server has known to be committed, and a server hands its service the commands of that
sequence in order, from the first one on after each restart.
-/

namespace Lab6824

variable {n : Nat} {C σ : Type} {gob : Gob (RaftImage n C) σ}

open Lib (Replica Grows Majority Committed Sequencer Sequencing Signal)

/-! ## What services see -/

/-- What the services see of an action. -/
def World.signals (w : World n C σ) : Action n C σ → List (Signal (Fin n) (Option C))
  | .start s command => if (w.nodes s).rf.state = .leader then [.submitted command] else []
  | .sendCommand s =>
    (w.nodes s).batch.head?.toList.map fun msg ↦ .handed s msg.commandIndex msg.command
  | .crash s => [.restarted s]
  | _ => []

/-- What a sequencer does at the same time. -/
def World.sequencing (w : World n C σ) : Action n C σ → List (Sequencing (Fin n) (Option C))
  | .start s command => if (w.nodes s).rf.state = .leader then [.submit command] else []
  | .sendCommand s => [.hand s]
  | .crash s => [.restart s]
  | _ => []

/-! ## What a step does to the applier of one server -/

/-- The step leaves server `t` with node `nd'`; nothing is compacted. -/
inductive HandStep (w : World n C σ) (a : Action n C σ) (t : Fin n) (nd' : Node n C σ) : Prop where
  | quiet (hsend : a ≠ .sendCommand t) (hcrash : a ≠ .crash t)
      (happ : nd'.rf.lastApplied = (w.nodes t).rf.lastApplied)
      (hbatch : nd'.batch = (w.nodes t).batch)
      (hawake : nd'.applierAwake = true → (w.nodes t).applierAwake = true ∨ (w.nodes t).batch = [])
  | collected (ha : a = .updateApplied t) (hold : (w.nodes t).applierAwake = true)
      (hrf : (w.nodes t).rf.updateApplied = some (nd'.rf, nd'.batch))
      (hawake : nd'.applierAwake = false)
  | sent (msg : ApplyMsg C σ) (ha : a = .sendCommand t) (hrf : nd'.rf = (w.nodes t).rf)
      (hbatch : (w.nodes t).batch = msg :: nd'.batch)
      (hawake : nd'.applierAwake = (w.nodes t).applierAwake)
  | restarted (ha : a = .crash t) (happ : nd'.rf.lastApplied = 0) (hbatch : nd'.batch = [])

theorem HandStep.update {w : World n C σ} {a : Action n C σ} {s : Fin n} {nd : Node n C σ}
    (hother : ∀ t, t ≠ s → a ≠ .sendCommand t ∧ a ≠ .crash t) (hself : HandStep w a s nd)
    (t : Fin n) : HandStep w a t (Function.update w.nodes s nd t) := by
  refine (Function.forall_update_iff w.nodes fun t nd ↦ HandStep w a t nd).mpr ⟨hself, ?_⟩ t
  intro t hts
  exact .quiet (hother t hts).1 (hother t hts).2 rfl rfl Or.inl

/-- An action that leaves `lastApplied` and the batch of its server alone. -/
theorem HandStep.idle {w : World n C σ} {a : Action n C σ} {s t : Fin n} {nd : Node n C σ}
    (ha : ∀ t, a ≠ .sendCommand t ∧ ¬ a.SetsApplied t)
    (hindex : IndexStep w a t (Function.update w.nodes s nd t).rf)
    (hbatch : nd.batch = (w.nodes s).batch)
    (hawake : nd.applierAwake = true → (w.nodes s).applierAwake = true ∨ (w.nodes s).batch = []) :
    HandStep w a t (Function.update w.nodes s nd t) := by
  have hcrash : a ≠ .crash t := by
    intro heq
    exact (ha t).2 (heq ▸ rfl)
  have happ := hindex.lastApplied_eq fun hset ↦ absurd hset (ha t).2
  by_cases hts : t = s
  · subst hts
    rw [Function.update_self] at happ ⊢
    exact .quiet (ha t).1 hcrash happ hbatch hawake
  · rw [Function.update_of_ne hts]
    exact .quiet (ha t).1 hcrash rfl rfl Or.inl

theorem step_hand {w w' : World n C σ} {a : Action n C σ} (hstep : Step gob w a w')
    (hflat : FlatInv gob w) (hok : NoCompaction a) (t : Fin n) : HandStep w a t (w'.nodes t) := by
  have hindex := step_indices hstep hflat.storage.durable t
  cases hstep with
  | timeoutLeader | roundIdle => exact .quiet nofun nofun rfl rfl Or.inl
  | updateApplied s hnd hawake hv =>
      subst hnd
      refine .update (fun _ _ ↦ ⟨by simp, by simp⟩) ?_ t
      exact .collected rfl hawake hv rfl
  | sendCommand s hnd hch hbatch =>
      subst hnd
      refine .update (fun t hts ↦ ⟨fun heq ↦ hts (Action.sendCommand.inj heq).symm, by simp⟩) ?_ t
      exact .sent _ rfl rfl hbatch rfl
  | crash s hnd hmake =>
      subst hnd
      obtain ⟨rf', hmake', hres, _⟩ := (hflat.storage.durable s).make s
      rw [hmake, Option.some.injEq] at hmake'
      subst hmake'
      refine .update (fun t hts ↦ ⟨by simp, fun heq ↦ hts (Action.crash.inj heq).symm⟩) ?_ t
      exact .restarted rfl (hres.lastApplied.trans (hflat.lastIncludedIndex s)) rfl
  | condInstallSnapshot s hnd hch hvalid hv =>
      subst hnd
      have hle := hflat.not_installed (.condInstallSnapshot s rfl hch hvalid hv) hch
      rcases Raft.condInstallSnapshot_cases hv with ⟨rfl, _, rfl⟩ | ⟨_, hlt, _⟩
      · refine .update (fun _ _ ↦ ⟨by simp, by simp⟩) ?_ t
        exact .quiet nofun nofun rfl rfl Or.inl
      · omega
  | snapshot => exact hok.elim
  | wakeApplier s hnd hrf hch hawake hbatch =>
      subst hnd hrf
      exact .idle (fun _ ↦ ⟨nofun, False.elim⟩) hindex rfl fun _ ↦ Or.inr hbatch
  -- the remaining steps hold nothing of the applier
  | campaign _ hnd | electSkip _ _ hnd | electSend _ _ hnd | requestVote _ hnd
  | voteRetire _ _ _ _ hnd | voteIgnore _ _ _ _ hnd | voteCount _ _ _ _ hnd
  | voteLead _ _ _ _ hnd | roundSnapshot _ _ hnd | roundAppend _ _ hnd | appendEntries _ hnd
  | appendReply _ _ _ hnd | installSnapshot _ hnd | snapshotReply _ _ _ hnd | start _ _ hnd
  | sendSnapshot _ _ hnd | serviceDone _ hnd =>
      subst hnd
      exact .idle (fun _ ↦ ⟨nofun, False.elim⟩) hindex rfl Or.inl

/-! ## The relation -/

/-- The cluster, mirrored by the logs `g`, stands where the sequencer `q` stands; `K` is the longest
log that a server has known to be committed. -/
structure Sequences (gob : Gob (RaftImage n C) σ) (w : World n C σ) (g : Replica (Fin n) (Log C))
    (K : List (Log C)) (q : Sequencer (Fin n) (Option C)) : Prop extends Mirrors gob w g where
  origins : Origins gob (· ∈ q.submitted) w
  committed : ∃ b, Committed Majority g b K
  sequence : q.sequence = K.map Log.command
  known : ∀ s, (w.nodes s).rf.log.tail.take (w.nodes s).rf.commitIndex.toNat <+: K
  ahead : ∀ s, (w.nodes s).rf.lastApplied ≤ (w.nodes s).rf.commitIndex
  commits : ∀ env ∈ w.appendReqs, env.args.leaderCommit ≤ env.args.lastIndex
  ready : ∀ s, (w.nodes s).Ready (q.handed s)
  batch : ∀ s (j : Nat) msg, (w.nodes s).batch[j]? = some msg →
    q.sequence[q.handed s + j]? = some msg.command

/-- `q₁` is the sequencer after what it does at the time of action `a`. -/
structure Followed (w : World n C σ) (a : Action n C σ) (q q₁ : Sequencer (Fin n) (Option C)) :
    Prop where
  sequence : q₁.sequence = q.sequence
  submitted : q.submitted ⊆ q₁.submitted
  started : ∀ s c, a = .start s c → (w.nodes s).rf.state = .leader → c ∈ q₁.submitted
  origin : ∀ c ∈ q₁.submitted, c ∈ q.submitted ∨
    ∃ s, a = .start s c ∧ (w.nodes s).rf.state = .leader
  sent : ∀ t, a = .sendCommand t → q₁.handed t = q.handed t + 1
  restarted : ∀ t, a = .crash t → q₁.handed t = 0
  kept : ∀ t, a ≠ .sendCommand t → a ≠ .crash t → q₁.handed t = q.handed t

namespace Sequences

variable {w w' : World n C σ} {g g' : Replica (Fin n) (Log C)} {K : List (Log C)}
  {q q₁ : Sequencer (Fin n) (Option C)} {a : Action n C σ}

theorem init : Sequences gob (World.init : World n C σ) (Replica.start (Fin n) (Log C)) []
    (Sequencer.start (Fin n) (Option C)) where
  toMirrors := Mirrors.init
  origins := Origins.init
  committed := ⟨0, Or.inl rfl⟩
  sequence := rfl
  known := fun _ ↦ List.prefix_refl _
  ahead := fun _ ↦ le_refl _
  commits := fun _ henv ↦ absurd henv List.not_mem_nil
  ready := fun _ ↦ .of_batch_nil rfl rfl
  batch := fun _ _ _ hj ↦ by cases hj

/-- Nothing is applied before it is known to be committed. -/
theorem ahead_step (h : Sequences gob w g K q) (hok : NoCompaction a) (hstep : Step gob w a w')
    (t : Fin n) : (w'.nodes t).rf.lastApplied ≤ (w'.nodes t).rf.commitIndex := by
  have hold := h.ahead t
  have hnn := h.flat.commit t
  cases step_indices hstep h.flat.storage.durable t with
  | same _ hi | appended _ _ _ _ hi | applied _ _ _ hi =>
      obtain ⟨_, _, _, hci, hla⟩ := indices_eq.mp hi
      omega
  | restarted ha hres =>
      -- `lastApplied` starts again from `lastIncludedIndex`, which is 0 here, and `commitIndex` from 0
      have hbase := h.flat.lastIncludedIndex t
      have hci := hres.commitIndex
      have hla := hres.lastApplied
      omega
  | committed env reply _ _ hdone _ hi =>
      obtain ⟨_, _, _, hci, hla⟩ := indices_eq.mp hi
      have hlt := hdone.ahead
      omega
  | merged env pli ha hdst henv hacc hterm hi =>
      -- a request carries all that it says is committed, and does not take `commitIndex` back
      obtain ⟨_, _, _, hci, hla⟩ := indices_eq.mp hi
      have hle := h.commits env henv
      split at hci <;> omega
  | installed msg ha hch hvalid hnew =>
      subst ha
      exact absurd hnew (not_lt.mpr (h.flat.not_installed hstep hch))
  | compacted i data dummy rest ha =>
      subst ha
      exact hok.elim

theorem commits_step (h : Sequences gob w g K q) (hstep : Step gob w a w')
    {env : Envelope n (AppendEntriesArgs n C)} (henv : env ∈ w'.appendReqs) :
    env.args.leaderCommit ≤ env.args.lastIndex := by
  rcases step_appendReqs hstep henv with hold | ⟨s, _, _, hround⟩
  · exact h.commits env hold
  · obtain ⟨d, hlog, _⟩ := h.flat.log_eq s
    have hknown := (h.commit.known s).le_length
    have hlen : ((w.nodes s).rf.log.length : Int) = (w.nodes s).rf.log.tail.length + 1 := by
      rw [hlog]
      simp
    rw [Raft.onRound_lastIndex hround, Raft.getLastLogIndex_eq, h.flat.lastIncludedIndex]
    obtain ⟨_, _, _, _, _, _, hargs⟩ := Raft.onRound_append hround
    rw [hargs]
    show (w.nodes s).rf.commitIndex ≤ _
    omega

/-- The longest of what was known before and what servers know now. -/
theorem longest_step (h : Sequences gob w g K q) (hgrow : Grows g g') (h' : Mirrors gob w' g') :
    ∃ cs, (∃ b, Committed Majority g' b (K ++ cs)) ∧
      (∀ s, (w'.nodes s).rf.log.tail.take (w'.nodes s).rf.commitIndex.toNat <+: K ++ cs) ∧
      ∀ e ∈ cs, ∃ s, e ∈ (w'.nodes s).rf.log.tail := by
  obtain ⟨b, hK⟩ := h.committed
  obtain ⟨b', M, hM, ⟨cs, rfl⟩, hall, hfrom⟩ :=
    Committed.exists_longest (fun _ _ ↦ Majority.inter) h'.keep
      (f := fun s ↦ (w'.nodes s).rf.log.tail.take (w'.nodes s).rf.commitIndex.toNat)
      (fun s ↦ ⟨_, (h'.commit.known s).committed⟩) (hK.mono hgrow (le_refl b)) (List.finRange n)
  refine ⟨cs, ⟨b', hM⟩, fun s ↦ hall s (List.mem_finRange s), fun e he ↦ ?_⟩
  rcases hfrom with heq | ⟨s, heq⟩
  · rw [List.append_right_eq_self] at heq
    rw [heq] at he
    cases he
  · have hmem := List.mem_append_right K he
    rw [heq] at hmem
    exact ⟨s, List.mem_of_mem_take hmem⟩

/-- The batch that `updateApplied` collects is what follows in the sequence. -/
theorem collected (h : Sequences gob w g K q) {t : Fin n} {rf : Raft n C σ}
    {msgs : List (ApplyMsg C σ)} (hold : (w.nodes t).applierAwake = true)
    (hrf : (w.nodes t).rf.updateApplied = some (rf, msgs)) {j : Nat} {msg : ApplyMsg C σ}
    (hj : msgs[j]? = some msg) : q.sequence[q.handed t + j]? = some msg.command := by
  have hlast := (h.ready t).applied
  rw [(h.ready t).idle hold, List.length_nil] at hlast
  have hindex := (Raft.updateApplied_batch hrf).2 j msg hj
  obtain ⟨index, e, _, hle, he, rfl⟩ := Raft.updateApplied_msgs hrf (List.mem_of_getElem? hj)
  dsimp only at hindex ⊢
  rw [show index = ((q.handed t + j : Nat) : Int) + 1 by omega] at he hle
  rw [h.flat.entryAt] at he
  rw [h.sequence, List.getElem?_map]
  have hknown : ((w.nodes t).rf.log.tail.take (w.nodes t).rf.commitIndex.toNat)[q.handed t + j]?
      = some e := by
    rw [List.getElem?_take_of_lt (by omega)]
    exact he
  rw [Lib.getElem?_of_isPrefix (h.known t) hknown]
  rfl

/-- Every service goes on where it was, one command further, or at the beginning. -/
theorem hand_step (h : Sequences gob w g K q) (hf : Followed w a q q₁) (hok : NoCompaction a)
    (hstep : Step gob w a w') (t : Fin n) :
    (w'.nodes t).Ready (q₁.handed t) ∧ ∀ (j : Nat) msg, (w'.nodes t).batch[j]? = some msg →
      q₁.sequence[q₁.handed t + j]? = some msg.command := by
  have hready := h.ready t
  have hbatch := h.batch t
  have hhand := step_hand hstep h.flat hok t
  generalize w'.nodes t = nd' at hhand ⊢
  rw [hf.sequence]
  cases hhand with
  | quiet hsend hcrash happ hsame hawake =>
      rw [hf.kept t hsend hcrash, hsame]
      exact ⟨hready.keep happ hsame hawake, hbatch⟩
  | collected ha hold hrf hawake =>
      subst ha
      rw [hf.kept t nofun nofun]
      exact ⟨hready.collect hold (h.ahead t) hrf hawake, fun j msg hj ↦ h.collected hold hrf hj⟩
  | sent msg ha hrf hsplit hawake =>
      obtain ⟨hindex, hready'⟩ := hready.send hsplit hrf hawake
      rw [hf.sent t ha]
      constructor
      · rw [hindex] at hready'
        exact_mod_cast hready'
      · intro j msg' hj
        have hnext := hbatch (j + 1) msg' (by rw [hsplit, List.getElem?_cons_succ]; exact hj)
        rw [Nat.add_right_comm]
        exact hnext
  | restarted ha happ hnil =>
      rw [hf.restarted t ha, hnil]
      exact ⟨.of_batch_nil hnil happ, fun j msg hj ↦ by cases hj⟩

/-- The services see nothing of the action. -/
theorem followed_self (hstart : ∀ s c, a = .start s c → (w.nodes s).rf.state ≠ .leader)
    (hsend : ∀ t, a ≠ .sendCommand t) (hcrash : ∀ t, a ≠ .crash t) : Followed w a q q where
  sequence := rfl
  submitted := List.Subset.refl _
  started := fun s c ha hlead ↦ absurd hlead (hstart s c ha)
  origin := fun _ ↦ Or.inl
  sent := fun t ha ↦ absurd ha (hsend t)
  restarted := fun t ha ↦ absurd ha (hcrash t)
  kept := fun _ _ _ ↦ rfl

section Step

variable [DecidableEq C]

/-- The sequencer can do what the services see. -/
theorem follow (h : Sequences gob w g K q) (hstep : Step gob w a w') :
    ∃ q₁, Lib.run Sequencer.step q (w.sequencing a) = some q₁ ∧
      Lib.observed Sequencer.step Sequencer.signals q (w.sequencing a) = w.signals a ∧
      Followed w a q q₁ := by
  cases hstep with
  | start s command hnd =>
      by_cases hlead : (w.nodes s).rf.state = .leader
      · simp only [World.sequencing, World.signals, if_pos hlead]
        refine ⟨_, rfl, rfl, rfl, List.subset_cons_self _ _, ?_, fun c hc ↦ ?_, by simp, by simp,
          fun _ _ _ ↦ rfl⟩
        · rintro _ _ ⟨⟩ _
          exact List.mem_cons_self
        · rcases List.mem_cons.mp hc with rfl | hold
          · exact Or.inr ⟨s, rfl, hlead⟩
          · exact Or.inl hold
      · simp only [World.sequencing, World.signals, if_neg hlead]
        refine ⟨q, rfl, rfl, followed_self ?_ (by simp) (by simp)⟩
        rintro _ _ ⟨⟩
        exact hlead
  | sendCommand s hnd hch hsplit =>
      rename_i msg rest
      subst hnd
      have hfirst := h.batch s 0 msg (by rw [hsplit]; rfl)
      have hindex := (h.ready s).batch 0 msg (by rw [hsplit]; rfl)
      have hlt := (List.getElem?_eq_some_iff.mp hfirst).1
      rw [Nat.add_zero] at hfirst hlt
      have hdo : q.step (.hand s) =
          some { q with handed := Function.update q.handed s (q.handed s + 1) } := if_pos hlt
      refine ⟨_, Lib.run_cons.mpr ⟨_, hdo, rfl⟩, ?_, rfl, List.Subset.refl _, by simp,
        fun _ ↦ Or.inl, ?_, by simp, ?_⟩
      · simp only [World.sequencing, World.signals, Lib.observed_cons hdo, Sequencer.signals, hfirst,
          hsplit, List.head?_cons, Option.toList_some, List.map_cons, List.map_nil, Lib.observed,
          List.append_nil, List.cons.injEq, Signal.handed.injEq, true_and, and_true]
        omega
      · rintro _ ⟨⟩
        exact Function.update_self _ _ _
      · intro t hsend _
        exact Function.update_of_ne (fun hts ↦ hsend (by rw [hts])) _ _
  | crash s hnd hmake =>
      refine ⟨_, rfl, rfl, rfl, List.Subset.refl _, by simp, fun _ ↦ Or.inl, by simp, ?_, ?_⟩
      · rintro _ ⟨⟩
        exact Function.update_self _ _ _
      · intro t _ hcrash
        exact Function.update_of_ne (fun hts ↦ hcrash (by rw [hts])) _ _
  -- the services see nothing of the remaining steps
  | _ => exact ⟨q, rfl, rfl, followed_self (by simp) (by simp) (by simp)⟩

/-- One step: the sequencer does what the services see, and then extends the sequence. -/
theorem step (h : Sequences gob w g K q) (hok : Agreeing w a) (hstep : Step gob w a w') :
    ∃ g' cs q₁, Lib.run Sequencer.step q (w.sequencing a) = some q₁ ∧
      Lib.observed Sequencer.step Sequencer.signals q (w.sequencing a) = w.signals a ∧
      Followed w a q q₁ ∧ (∀ c ∈ cs.map Log.command, c ∈ q₁.submitted) ∧
      Sequences gob w' g' (K ++ cs)
        { q₁ with sequence := q₁.sequence ++ cs.map Log.command } := by
  obtain ⟨hflat, hone, hown⟩ := hok
  obtain ⟨g', hgrow, hm⟩ := h.toMirrors.step hflat hone hown hstep
  obtain ⟨q₁, hrun, hobs, hf⟩ := h.follow hstep
  obtain ⟨cs, hcom, hknown, hfrom⟩ := h.longest_step hgrow hm
  have horigins : Origins gob (· ∈ q₁.submitted) w' :=
    (h.origins.mono fun c hc ↦ hf.submitted hc).step hf.started hstep
  refine ⟨g', cs, q₁, hrun, hobs, hf, fun c hc ↦ ?_, ?_⟩
  · obtain ⟨e, he, rfl⟩ := List.mem_map.mp hc
    obtain ⟨s, hs⟩ := hfrom e he
    exact horigins.log s e hs
  · refine ⟨hm, horigins, hcom, ?_, hknown, h.ahead_step hflat hstep, fun _ ↦ h.commits_step hstep,
      fun t ↦ (h.hand_step hf hflat hstep t).1, fun t j msg hj ↦ ?_⟩
    · rw [hf.sequence, h.sequence, List.map_append]
    · exact Lib.getElem?_of_isPrefix (List.prefix_append _ _)
        ((h.hand_step hf hflat hstep t).2 j msg hj)

end Step

end Sequences

/-! ## The refinement -/

/-- In a run that meets the conditions the services see what the subscribers of a sequencer may see:
all servers are handed one sequence of commands that were passed to a leader's `Start`, each server
from the beginning and in order after each of its restarts. -/
theorem raft_refines_sequencer [DecidableEq C] [DecidableEq σ] {gob : Gob (RaftImage n C) σ}
    {w : World n C σ} {as : List (Action n C σ)}
    (hok : Lib.Along (World.step gob) Agreeing World.init as)
    (hrun : Lib.run (World.step gob) World.init as = some w) :
    ∃ bs q, Lib.run Sequencer.step (Sequencer.start (Fin n) (Option C)) bs = some q ∧
      Lib.observed Sequencer.step Sequencer.signals (Sequencer.start (Fin n) (Option C)) bs =
        Lib.observed (World.step gob) World.signals World.init as := by
  have hrefines : ∃ bs q, Lib.run Sequencer.step (Sequencer.start (Fin n) (Option C)) bs = some q ∧
      Lib.observed Sequencer.step Sequencer.signals (Sequencer.start (Fin n) (Option C)) bs =
        Lib.observed (World.step gob) World.signals World.init as ∧
      ∃ g K, Sequences gob w g K q := by
    refine Lib.run_refines (R := fun v q ↦ ∃ g K, Sequences gob v g K q) ?_
      ⟨_, _, Sequences.init⟩ hok hrun
    rintro v a v' q ⟨g, K, h⟩ hva hstep
    obtain ⟨g', cs, q₁, hq₁, hobs, _, hsub, h'⟩ := h.step hva (World.step_inv hstep)
    obtain ⟨horder, hsilent⟩ := Sequencer.run_order hsub
    refine ⟨_, _, Lib.run_append.mpr ⟨q₁, hq₁, horder⟩, ?_, g', _, h'⟩
    rw [Lib.observed_append hq₁, hobs, hsilent, List.append_nil]
  obtain ⟨bs, q, hbs, hobs, _⟩ := hrefines
  exact ⟨bs, q, hbs, hobs⟩

/-- After `commitRun` server 0 hands its service the first command, crashes, and server 1 learns
what is committed. -/
theorem raft_refines_sequencer_handRun :
    let handRun : List (Action 3 Nat (RaftImage 3 Nat)) := commitRun ++
      [ .onRound 0 1, .wakeApplier 0, .updateApplied 0, .sendCommand 0, .crash 0,
        .appendEntries ⟨2, 1, ⟨1, 0, 2, 1, [], 2⟩⟩, .wakeApplier 1, .updateApplied 1, .sendCommand 1 ]
    ∃ bs q, Lib.run Sequencer.step (Sequencer.start (Fin 3) (Option Nat)) bs = some q ∧
      Lib.observed Sequencer.step Sequencer.signals (Sequencer.start (Fin 3) (Option Nat)) bs =
        [.submitted (some 7), .submitted (some 8), .handed 0 1 (some 7), .restarted 0,
          .handed 1 1 (some 7)] ∧
      (Lib.run (World.step (Gob.plain (RaftImage 3 Nat))) World.init handRun).isSome = true := by
  intro handRun
  have hsome : (Lib.run (World.step (Gob.plain (RaftImage 3 Nat))) World.init handRun).isSome =
      true := by
    decide +kernel
  have hok : Lib.Along (World.step (Gob.plain (RaftImage 3 Nat))) Agreeing World.init handRun := by
    decide +kernel
  have hobs : Lib.observed (World.step (Gob.plain (RaftImage 3 Nat))) World.signals World.init
      handRun = [.submitted (some 7), .submitted (some 8), .handed 0 1 (some 7), .restarted 0,
        .handed 1 1 (some 7)] := by
    decide +kernel
  obtain ⟨w, hrun⟩ := Option.isSome_iff_exists.mp hsome
  obtain ⟨bs, q, hbs, heq⟩ := raft_refines_sequencer hok hrun
  exact ⟨bs, q, hbs, heq.trans hobs, hsome⟩

end Lab6824
