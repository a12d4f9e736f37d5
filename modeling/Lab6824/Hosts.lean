import Lab6824.Lib.Service
import Lab6824.Raft.Sequencing

/-!
# Hosts — services on top of their Raft peers

A server process is a Raft peer and a service above it.  They meet in `Start`, in `GetState` and at
`applyCh`, of which `fetchApply` receives one message after the other.  `Hosts` puts the two models
together, for a service that does not compact (`maxraftstate` is `-1`), and `Hosted.step` shows that
the services cannot tell the peers from one sequence of operations, which is what `Lib.Service`
assumes.
-/

namespace Lab6824

variable {n : Nat}

open Lib (Sequencer)

/-! ## The channel between a peer and its service -/

section Channel

variable {C σ : Type} {gob : Gob (RaftImage n C) σ}

def Raft.getState (rf : Raft n C σ) : Int × Bool :=
  (rf.currentTerm, decide (rf.state = .leader))

/-- What the step does to the message that the service of `t` is working on. -/
inductive ChanStep (w : World n C σ) (a : Action n C σ) (t : Fin n) (nd' : Node n C σ) : Prop where
  | same (hsend : a ≠ .sendCommand t) (hcrash : a ≠ .crash t)
      (hch : nd'.applyCh = (w.nodes t).applyCh)
  | command (msg : ApplyMsg C σ) (ha : a = .sendCommand t) (hold : (w.nodes t).applyCh = none)
      (hmsg : (w.nodes t).batch[0]? = some msg) (hch : nd'.applyCh = some msg)
  | snapshot (k : Nat) (msg : ApplyMsg C σ) (ha : a = .sendSnapshot t k)
      (hold : (w.nodes t).applyCh = none) (hmsg : msg ∈ (w.nodes t).snapshots)
      (hch : nd'.applyCh = some msg)
  | done (ha : a = .serviceDone t ∨ a = .condInstallSnapshot t) (hch : nd'.applyCh = none)
  | restarted (ha : a = .crash t) (hch : nd'.applyCh = none)

theorem ChanStep.update {w : World n C σ} {a : Action n C σ} {s : Fin n} {nd : Node n C σ}
    (hother : ∀ t, t ≠ s → a ≠ .sendCommand t ∧ a ≠ .crash t) (hself : ChanStep w a s nd)
    (t : Fin n) : ChanStep w a t (Function.update w.nodes s nd t) := by
  refine (Function.forall_update_iff w.nodes fun t nd ↦ ChanStep w a t nd).mpr ⟨hself, ?_⟩ t
  intro t hts
  exact .same (hother t hts).1 (hother t hts).2 rfl

theorem step_chan {w w' : World n C σ} {a : Action n C σ} (hstep : Step gob w a w') (t : Fin n) :
    ChanStep w a t (w'.nodes t) := by
  cases hstep with
  | timeoutLeader | roundIdle => exact .same nofun nofun rfl
  | sendCommand s hnd hch hbatch =>
      subst hnd
      refine .update (fun t hts ↦ ⟨fun heq ↦ hts (Action.sendCommand.inj heq).symm, by simp⟩) ?_ t
      exact .command _ rfl hch (by rw [hbatch]; rfl) rfl
  | sendSnapshot s k hnd hch hmsg =>
      subst hnd
      refine .update (fun _ _ ↦ ⟨by simp, by simp⟩) ?_ t
      exact .snapshot k _ rfl hch (List.mem_of_getElem? hmsg) rfl
  | serviceDone s hnd =>
      refine .update (fun _ _ ↦ ⟨by simp, by simp⟩) ?_ t
      exact .done (Or.inl rfl) rfl
  | condInstallSnapshot s hnd =>
      refine .update (fun _ _ ↦ ⟨by simp, by simp⟩) ?_ t
      exact .done (Or.inr rfl) rfl
  | crash s hnd hmake =>
      refine .update (fun t hts ↦ ⟨by simp, fun heq ↦ hts (Action.crash.inj heq).symm⟩) ?_ t
      exact .restarted rfl rfl
  -- the remaining steps put nothing on the channel and take nothing from it
  | campaign _ hnd | electSkip _ _ hnd | electSend _ _ hnd | requestVote _ hnd
  | voteRetire _ _ _ _ hnd | voteIgnore _ _ _ _ hnd | voteCount _ _ _ _ hnd
  | voteLead _ _ _ _ hnd | roundSnapshot _ _ hnd | roundAppend _ _ hnd | appendEntries _ hnd
  | appendReply _ _ _ hnd | installSnapshot _ hnd | snapshotReply _ _ _ hnd | start _ _ hnd
  | wakeApplier _ hnd | updateApplied _ hnd | snapshot _ _ _ hnd =>
      subst hnd
      refine .update (fun _ _ ↦ ⟨by simp, by simp⟩) ?_ t
      exact .same nofun nofun rfl

/-- The messages of `updateApplied` are commands, those of `InstallSnapshot` are not. -/
structure Labelled (w : World n C σ) : Prop where
  batch : ∀ s, ∀ msg ∈ (w.nodes s).batch, msg.commandValid = true
  snapshots : ∀ s, ∀ msg ∈ (w.nodes s).snapshots, msg.commandValid = false

theorem Labelled.init : Labelled (World.init : World n C σ) where
  batch := fun _ _ hmsg ↦ absurd hmsg List.not_mem_nil
  snapshots := fun _ _ hmsg ↦ absurd hmsg List.not_mem_nil

theorem Labelled.step {w w' : World n C σ} {a : Action n C σ} (h : Labelled w)
    (hstep : Step gob w a w') : Labelled w' := by
  constructor
  · intro s msg hmsg
    rcases step_batch hstep hmsg with hold | ⟨index, e, _, _, _, rfl⟩
    · exact h.batch s msg hold
    · rfl
  · intro t msg hmsg
    have hupdate : ∀ {s : Fin n} {nd : Node n C σ},
        msg ∈ (Function.update w.nodes s nd t).snapshots →
          msg ∈ (w.nodes t).snapshots ∨ t = s ∧ msg ∈ nd.snapshots :=
      fun hmem ↦ Lib.of_update (p := fun nd : Node n C σ ↦ msg ∈ nd.snapshots) hmem
    have hold := h.snapshots t msg
    cases hstep with
    | timeoutLeader | roundIdle => exact hold hmsg
    | installSnapshot env hnd henv hv =>
        subst hnd
        rcases hupdate hmsg with hmem | ⟨rfl, hnew⟩
        · exact hold hmem
        · rcases List.mem_append.mp hnew with hmem | hnew
          · exact hold hmem
          · rw [Option.mem_toList] at hnew
            rw [Option.mem_def.mp hnew] at hv
            rw [Raft.installSnapshot_msg hv]
    | sendSnapshot s k hnd hch hk =>
        subst hnd
        rcases hupdate hmsg with hmem | ⟨rfl, hnew⟩
        · exact hold hmem
        · exact hold (List.mem_of_mem_eraseIdx hnew)
    | crash s hnd hmake =>
        rcases hupdate hmsg with hmem | ⟨rfl, hnew⟩
        · exact hold hmem
        · exact absurd hnew List.not_mem_nil
    -- the remaining steps leave these messages alone
    | campaign _ hnd | electSkip _ _ hnd | electSend _ _ hnd | requestVote _ hnd
    | voteRetire _ _ _ _ hnd | voteIgnore _ _ _ _ hnd | voteCount _ _ _ _ hnd
    | voteLead _ _ _ _ hnd | roundSnapshot _ _ hnd | roundAppend _ _ hnd | appendEntries _ hnd
    | appendReply _ _ _ hnd | snapshotReply _ _ _ hnd | start _ _ hnd | wakeApplier _ hnd
    | updateApplied _ hnd | sendCommand _ hnd | serviceDone _ hnd | condInstallSnapshot _ hnd
    | snapshot _ _ _ hnd =>
        subst hnd
        rcases hupdate hmsg with hmem | ⟨rfl, hnew⟩
        · exact hold hmem
        · exact hold hnew

end Channel

/-! ## The servers -/

variable {S E O A T K σ : Type}

/-- The peers, and the services above them. -/
structure Hosts (n : Nat) (S E O A K σ : Type) where
  raft : World n O σ
  nodes : Fin n → Lib.Node S E O A K (List σ)

inductive HostAction (n : Nat) (E O σ : Type) where
  /-- A step of Raft in which the service has no part. -/
  | raft (a : Action n O σ)
  /-- A section of the service in which Raft has no part. -/
  | serve (s : Fin n) (action : Lib.NodeAction E)
  /-- `rf.Start` in the `k`-th handler. -/
  | start (s : Fin n) (k : Nat)
  /-- `fetchApply` executes the command that it has received. -/
  | apply (s : Fin n)
  /-- `rf.GetState` in `fetchApply`. -/
  | getState (s : Fin n)
  /-- `fetchApply` goes on to the next message. -/
  | done (s : Fin n)
  /-- `fetchApply` has received a snapshot. -/
  | install (s : Fin n)
  | crash (s : Fin n)

/-- Raft acts on its own. -/
def Action.internal : Action n O σ → Bool
  | .start _ _ | .serviceDone _ | .condInstallSnapshot _ | .snapshot _ _ _ | .crash _ => false
  | _ => true

theorem noCompaction_of_internal {a : Action n O σ} (h : a.internal = true) : NoCompaction a := by
  cases a with
  | snapshot => cases h
  | _ => trivial

/-- The service acts on its own. -/
def servesAlone : Lib.NodeAction E → Bool
  | .start _ _ _ | .apply | .getState _ | .snapshot _ | .restart => false
  | _ => true

namespace Hosts

/-- All servers have been started from empty persisters. -/
def init (svc : Lib.Service S E O A T K (List σ)) : Hosts n S E O A K σ where
  raft := World.init
  nodes := fun _ ↦ { state := svc.start, saved := (svc.blank, 0) }

/-- What `StartKVServer` makes of the persister that `Make` has read. -/
def boot (svc : Lib.Service S E O A T K (List σ)) (rf : Raft n O σ) :
    Lib.Node S E O A K (List σ) where
  state := svc.load svc.start rf.persister.snapshot
  applied := rf.lastIncludedIndex.toNat
  saved := (rf.persister.snapshot, rf.lastIncludedIndex.toNat)

/-- Server `s` goes on with peers `raft` and a node that has just acted. -/
def after (h : Hosts n S E O A K σ) (raft : World n O σ) (s : Fin n)
    (out : Lib.Outcome S E O A K (List σ)) : Hosts n S E O A K σ × List (E × A) :=
  ({ raft := raft, nodes := Function.update h.nodes s out.node }, out.replies)

section Step

variable (svc : Lib.Service S E O A T K (List σ)) (gob : Gob (RaftImage n O) σ)
  (h : Hosts n S E O A K σ)

def start (s : Fin n) (k : Nat) : Option (Hosts n S E O A K σ × List (E × A)) :=
  match (h.nodes s).handlers[k]? with
  | some ⟨env, .checked⟩ =>
    let op := svc.request env
    let (_, index, _, isLeader) := (h.raft.nodes s).rf.start gob (some op)
    ((h.nodes s).start svc k index isLeader).map (h.after (h.raft.start gob s (some op)) s)
  | _ => none

/-- The assertion that the command is an `Op` panics on `nil`. -/
def apply (s : Fin n) : Option (Hosts n S E O A K σ × List (E × A)) :=
  match (h.raft.nodes s).applyCh with
  | none => none
  | some msg =>
    if msg.commandValid then
      match msg.command with
      | none => none
      | some op => ((h.nodes s).take svc op msg.commandIndex).map (h.after h.raft s)
    else none

def getState (s : Fin n) : Option (Hosts n S E O A K σ × List (E × A)) :=
  ((h.nodes s).getState (h.raft.nodes s).rf.getState.2).map (h.after h.raft s)

/-- `maxraftstate` is `-1`, so no snapshot is taken. -/
def done (s : Fin n) : Option (Hosts n S E O A K σ × List (E × A)) :=
  ((h.nodes s).snapshot svc false).map (h.after (h.raft.serviceDone s) s)

def install (s : Fin n) : Option (Hosts n S E O A K σ × List (E × A)) :=
  match (h.raft.nodes s).applyCh with
  | none => none
  | some msg =>
    if msg.commandValid then none
    else
      match (h.raft.nodes s).rf.condInstallSnapshot gob msg.snapshotTerm msg.snapshotIndex
          msg.snapshot, h.raft.condInstallSnapshot gob s with
      | some (_, accepted), some raft =>
        let nd := h.nodes s
        let nd' :=
          if accepted then
            { nd with
              state := svc.load nd.state msg.snapshot
              applied := msg.snapshotIndex.toNat }
          else nd
        some (h.after raft s { node := nd' })
      | _, _ => none

def crash (s : Fin n) : Option (Hosts n S E O A K σ × List (E × A)) :=
  match h.raft.crash gob s with
  | none => none
  | some raft => some (h.after raft s { node := boot svc (raft.nodes s).rf })

variable [DecidableEq K] [DecidableEq O] [DecidableEq σ]

/-- One step of the servers, with the answers that it gives to requests. -/
def step : HostAction n E O σ → Option (Hosts n S E O A K σ × List (E × A))
  | .raft a =>
    if a.internal then (h.raft.step gob a).map fun raft ↦ ({ h with raft := raft }, []) else none
  | .serve s action =>
    if servesAlone action then ((h.nodes s).step svc [] action).map (h.after h.raft s) else none
  | .start s k => h.start svc gob s k
  | .apply s => h.apply svc s
  | .getState s => h.getState s
  | .done s => h.done svc s
  | .install s => h.install svc gob s
  | .crash s => h.crash svc gob s

end Step

end Hosts

/-- The conditions under which the peers agree; without `Snapshot` nothing is compacted. -/
def HostsAgree (h : Hosts n S E O A K σ) : HostAction n E O σ → Prop
  | .raft a => LeadsByOneTerm h.raft a ∧ CommitsOwnTerm h.raft a
  | _ => True

instance decidableHostsAgree (h : Hosts n S E O A K σ) (a : HostAction n E O σ) :
    Decidable (HostsAgree h a) := by
  unfold HostsAgree
  induction a using HostAction.casesOn <;> infer_instance

/-! ## What holds between a peer and its service -/

/-- Where the loop of `fetchApply` stands. -/
inductive Waits (nd : Node n O σ) (host : Lib.Node S E O A K (List σ)) (handed : Nat)
    (log : List O) : Prop where
  | free (hch : nd.applyCh = none) (hidle : host.applier = .idle) (happ : host.applied = handed)
  | received (msg : ApplyMsg O σ) (op : O) (hch : nd.applyCh = some msg)
      (hvalid : msg.commandValid = true) (hidle : host.applier = .idle)
      (happ : host.applied + 1 = handed) (hop : log[host.applied]? = some op)
      (hcommand : msg.command = some op) (hindex : msg.commandIndex = (host.applied + 1 : Nat))
  | working (msg : ApplyMsg O σ) (hch : nd.applyCh = some msg) (hvalid : msg.commandValid = true)
      (hbusy : host.applier ≠ .idle) (happ : host.applied = handed)
  | snapshot (msg : ApplyMsg O σ) (hch : nd.applyCh = some msg) (hvalid : msg.commandValid = false)
      (hidle : host.applier = .idle) (happ : host.applied = handed)

namespace Waits

variable {nd nd' : Node n O σ} {host host' : Lib.Node S E O A K (List σ)} {handed : Nat}
  {log : List O}

/-- The peer and the log move on, but not the loop. -/
theorem keep (h : Waits nd host handed log) (hch : nd'.applyCh = nd.applyCh) (ops : List O) :
    Waits nd' host handed (log ++ ops) := by
  cases h with
  | free hold hidle happ => exact .free (hch.trans hold) hidle happ
  | received msg op hold hvalid hidle happ hop hcommand hindex =>
      refine .received msg op (hch.trans hold) hvalid hidle happ ?_ hcommand hindex
      exact Lib.getElem?_of_isPrefix (List.prefix_append _ _) hop
  | working msg hold hvalid hbusy happ => exact .working msg (hch.trans hold) hvalid hbusy happ
  | snapshot msg hold hvalid hidle happ => exact .snapshot msg (hch.trans hold) hvalid hidle happ

/-- A handler acts, or the applier while it is at work. -/
theorem serve (h : Waits nd host handed log) (happlied : host'.applied = host.applied)
    (hidle : host'.applier = .idle ↔ host.applier = .idle) : Waits nd host' handed log := by
  cases h with
  | free hch hold happ => exact .free hch (hidle.mpr hold) (happlied.trans happ)
  | received msg op hch hvalid hold happ hop hcommand hindex =>
      refine .received msg op hch hvalid (hidle.mpr hold) ?_ ?_ hcommand ?_
      · rw [happlied]
        exact happ
      · rw [happlied]
        exact hop
      · rw [happlied]
        exact hindex
  | working msg hch hvalid hbusy happ =>
      exact .working msg hch hvalid (fun hnow ↦ hbusy (hidle.mp hnow)) (happlied.trans happ)
  | snapshot msg hch hvalid hold happ =>
      exact .snapshot msg hch hvalid (hidle.mpr hold) (happlied.trans happ)

end Waits

/-- The peers are at the sequencer's state `q`, whose sequence is `log`, and every service waits for
what its peer hands it. -/
structure Hosted (svc : Lib.Service S E O A T K (List σ)) (gob : Gob (RaftImage n O) σ)
    (h : Hosts n S E O A K σ) (q : Sequencer (Fin n) (Option O)) (log started : List O) : Prop where
  raft : ∃ g K, Sequences gob h.raft g K q
  labelled : Labelled h.raft
  sequence : q.sequence = log.map some
  submitted : ∀ c ∈ q.submitted, ∃ op, op ∈ started ∧ some op = c
  waits : ∀ s, Waits (h.raft.nodes s) (h.nodes s) (q.handed s) log
  saved : ∀ s, (h.nodes s).saved = (svc.blank, 0)

/-- What a step of the servers is to the services: nothing, or a step of one of them. -/
inductive Serves [DecidableEq K] (svc : Lib.Service S E O A T K (List σ)) (log : List O)
    (a : HostAction n E O σ) (nodes : Fin n → Lib.Node S E O A K (List σ)) :
    (Fin n → Lib.Node S E O A K (List σ)) → List O → List (E × A) → Prop where
  | idle : Serves svc log a nodes nodes [] []
  | node (s : Fin n) (action : Lib.NodeAction E) {out : Lib.Outcome S E O A K (List σ)}
      (hstep : (nodes s).step svc log action = some out)
      (harrived : ∀ env, action = .handle env → a = .serve s (.handle env)) :
      Serves svc log a nodes (Function.update nodes s out.node) out.started out.replies

/-! ## Sections of the service -/

/-- A section in which Raft has no part does not look at the log, hands nothing to it and leaves the
loop of `fetchApply` where it is. -/
theorem serve_spec [DecidableEq K] {svc : Lib.Service S E O A T K (List σ)}
    {nd : Lib.Node S E O A K (List σ)} {action : Lib.NodeAction E}
    {out : Lib.Outcome S E O A K (List σ)} (halone : servesAlone action = true)
    (hstep : nd.step svc [] action = some out) (log : List O) :
    nd.step svc log action = some out ∧ out.started = [] ∧ out.node.applied = nd.applied ∧
      (out.node.applier = .idle ↔ nd.applier = .idle) ∧ out.node.saved = nd.saved := by
  cases action with
  | handle env =>
      refine ⟨hstep, ?_⟩
      simp only [Lib.Node.step, Lib.Node.handle, Option.some.injEq] at hstep
      split at hstep
      all_goals
        subst hstep
        exact ⟨rfl, rfl, Iff.rfl, rfl⟩
  | getWaitChan k =>
      obtain ⟨w, hw, rfl⟩ := Option.map_eq_some_iff.mp hstep
      exact ⟨hstep, rfl, rfl, (Lib.Waiters.handlerChan_moves hw).idle_iff, rfl⟩
  | receive k =>
      obtain ⟨⟨w, env, answer⟩, hw, rfl⟩ := Option.map_eq_some_iff.mp hstep
      exact ⟨hstep, rfl, rfl, (Lib.Waiters.receive_moves hw).1.idle_iff, rfl⟩
  | timeout k =>
      obtain ⟨⟨w, env⟩, hw, rfl⟩ := Option.map_eq_some_iff.mp hstep
      exact ⟨hstep, rfl, rfl, (Lib.Waiters.timeout_moves hw).1.idle_iff, rfl⟩
  | deleteWaitChan k =>
      obtain ⟨w, hw, rfl⟩ := Option.map_eq_some_iff.mp hstep
      exact ⟨hstep, rfl, rfl, (Lib.Waiters.deleteWaitChan_moves hw).idle_iff, rfl⟩
  | applierChan =>
      obtain ⟨w, hw, rfl⟩ := Option.map_eq_some_iff.mp hstep
      exact ⟨hstep, rfl, rfl, (Lib.Waiters.applierChan_moves hw).idle_iff, rfl⟩
  | send =>
      obtain ⟨w, hw, rfl⟩ := Option.map_eq_some_iff.mp hstep
      exact ⟨hstep, rfl, rfl, (Lib.Waiters.send_moves hw).1.idle_iff, rfl⟩
  | start | apply | getState | snapshot | restart => cases halone

/-- A handler calls `Start`. -/
theorem handler_start_spec {svc : Lib.Service S E O A T K (List σ)}
    {nd : Lib.Node S E O A K (List σ)} {k : Nat} {index : Int} {isLeader : Bool} {env : E}
    {out : Lib.Outcome S E O A K (List σ)} (hk : nd.handlers[k]? = some ⟨env, .checked⟩)
    (hstep : nd.start svc k index isLeader = some out) :
    out.started = (if isLeader then [svc.request env] else []) ∧ out.node.applied = nd.applied ∧
      (out.node.applier = .idle ↔ nd.applier = .idle) ∧ out.node.saved = nd.saved := by
  obtain ⟨⟨w, env'⟩, hw, rfl⟩ := Option.map_eq_some_iff.mp hstep
  have hidle := (Lib.Waiters.start_moves hw).1.idle_iff
  unfold Lib.Waiters.start at hw
  rw [hk] at hw
  cases isLeader with
  | true =>
      cases hw
      exact ⟨rfl, rfl, hidle, rfl⟩
  | false => exact ⟨rfl, rfl, hidle, rfl⟩

theorem applier_getState_spec {nd : Lib.Node S E O A K (List σ)} {isLeader : Bool}
    {out : Lib.Outcome S E O A K (List σ)} (hstep : nd.getState isLeader = some out) :
    out.started = [] ∧ out.node.applied = nd.applied ∧
      (out.node.applier = .idle ↔ nd.applier = .idle) ∧ out.node.saved = nd.saved := by
  obtain ⟨w, hw, rfl⟩ := Option.map_eq_some_iff.mp hstep
  exact ⟨rfl, rfl, (Lib.Waiters.getState_moves hw).idle_iff, rfl⟩

theorem applier_snapshot_spec {svc : Lib.Service S E O A T K (List σ)}
    {nd : Lib.Node S E O A K (List σ)} {out : Lib.Outcome S E O A K (List σ)}
    (hstep : nd.snapshot svc false = some out) :
    out.started = [] ∧ nd.applier ≠ .idle ∧ out.node.applied = nd.applied ∧
      out.node.applier = .idle ∧ out.node.saved = nd.saved := by
  obtain ⟨w, hw, rfl⟩ := Option.map_eq_some_iff.mp hstep
  obtain ⟨hold, rfl⟩ := Lib.Waiters.next_eq hw
  exact ⟨rfl, by simp [hold], rfl, rfl, by simp⟩

/-! ## Simulation -/

/-- Where the peers stand after a step of Raft. -/
structure Advanced (gob : Gob (RaftImage n O) σ) (a : Action n O σ) (w : World n O σ)
    (q q' : Sequencer (Fin n) (Option O)) (log started : List O) : Prop where
  raft : ∃ g K, Sequences gob w g K q'
  labelled : Labelled w
  sequence : q'.sequence = log.map some
  submitted : ∀ c ∈ q'.submitted, ∃ op, op ∈ started ∧ some op = c
  sent : ∀ t, a = .sendCommand t → q'.handed t = q.handed t + 1
  restarted : ∀ t, a = .crash t → q'.handed t = 0
  kept : ∀ t, a ≠ .sendCommand t → a ≠ .crash t → q'.handed t = q.handed t

namespace Hosted

variable {svc : Lib.Service S E O A T K (List σ)} {gob : Gob (RaftImage n O) σ}
  {hs hs' : Hosts n S E O A K σ} {q q' : Sequencer (Fin n) (Option O)}
  {log started ops new : List O}

theorem init : Hosted svc gob (Hosts.init svc : Hosts n S E O A K σ)
    (Sequencer.start (Fin n) (Option O)) [] [] where
  raft := ⟨_, _, Sequences.init⟩
  labelled := Labelled.init
  sequence := rfl
  submitted := fun _ hc ↦ absurd hc List.not_mem_nil
  waits := fun _ ↦ .free rfl rfl rfl
  saved := fun _ ↦ rfl

/-- The peers take a step; what they add to the sequence was started. -/
theorem advance [DecidableEq O] (h : Hosted svc gob hs q log started) (new : List O)
    {a : Action n O σ} {raft : World n O σ} (hok : Agreeing hs.raft a)
    (hstep : Step gob hs.raft a raft)
    (hnew : ∀ s c, a = .start s c → (hs.raft.nodes s).rf.state = .leader →
      ∃ op, op ∈ new ++ started ∧ some op = c) :
    ∃ q' ops, (∀ op ∈ ops, op ∈ new ++ started) ∧
      Advanced gob a raft q q' (log ++ ops) (new ++ started) := by
  obtain ⟨g, K, hraft⟩ := h.raft
  obtain ⟨g', cs, q₁, _, _, hf, hcs, hraft'⟩ := hraft.step hok hstep
  have hsub : ∀ c ∈ q₁.submitted, ∃ op, op ∈ new ++ started ∧ some op = c := by
    intro c hc
    rcases hf.origin c hc with hold | ⟨s, ha, hlead⟩
    · obtain ⟨op, hop, heq⟩ := h.submitted c hold
      exact ⟨op, List.mem_append_right new hop, heq⟩
    · exact hnew s c ha hlead
  obtain ⟨ops, hops, hmap⟩ := Lib.exists_map_eq fun c hc ↦ hsub c (hcs c hc)
  refine ⟨_, ops, hops, ⟨_, _, hraft'⟩, h.labelled.step hstep, ?_, hsub, hf.sent, hf.restarted,
    hf.kept⟩
  show q₁.sequence ++ _ = _
  rw [hf.sequence, h.sequence, ← hmap, List.map_append]

/-- A step of Raft in which the service has no part: the loop is where it was, or it has received a
message. -/
theorem waits_internal (h : Hosted svc gob hs q log started) {a : Action n O σ}
    {raft : World n O σ} (hinternal : a.internal = true) (hstep : Step gob hs.raft a raft)
    (hadv : Advanced gob a raft q q' (log ++ ops) started) (t : Fin n) :
    Waits (raft.nodes t) (hs.nodes t) (q'.handed t) (log ++ ops) := by
  have hold := h.waits t
  cases step_chan hstep t with
  | same hsend hcrash hch =>
      rw [hadv.kept t hsend hcrash]
      exact hold.keep hch ops
  | command msg ha hnone hmsg hch =>
      obtain ⟨g, K, hraft⟩ := h.raft
      have hcommand := hraft.batch t 0 msg hmsg
      have hindex := (hraft.ready t).batch 0 msg hmsg
      rw [h.sequence, List.getElem?_map, Option.map_eq_some_iff] at hcommand
      obtain ⟨op, hop, heq⟩ := hcommand
      rw [hadv.sent t ha]
      cases hold with
      | free _ hidle happ =>
          refine .received msg op hch ?_ hidle (by rw [happ]) ?_ heq.symm ?_
          · exact h.labelled.batch t msg (List.mem_of_getElem? hmsg)
          · rw [happ]
            exact Lib.getElem?_of_isPrefix (List.prefix_append _ _) hop
          · rw [happ, hindex]
            omega
      | received _ _ hsome | working _ hsome | snapshot _ hsome =>
          rw [hnone] at hsome
          cases hsome
  | snapshot k msg ha hnone hmsg hch =>
      subst ha
      rw [hadv.kept t nofun nofun]
      cases hold with
      | free _ hidle happ => exact .snapshot msg hch (h.labelled.snapshots t msg hmsg) hidle happ
      | received _ _ hsome | working _ hsome | snapshot _ hsome =>
          rw [hnone] at hsome
          cases hsome
  | done ha =>
      rcases ha with rfl | rfl
      · cases hinternal
      · cases hinternal
  | restarted ha =>
      subst ha
      cases hinternal

theorem of_advanced {a : Action n O σ} {w : World n O σ}
    {nodes : Fin n → Lib.Node S E O A K (List σ)} (h : Advanced gob a w q q' log started)
    (hwaits : ∀ t, Waits (w.nodes t) (nodes t) (q'.handed t) log)
    (hsaved : ∀ t, (nodes t).saved = (svc.blank, 0)) :
    Hosted svc gob ⟨w, nodes⟩ q' log started where
  raft := h.raft
  labelled := h.labelled
  sequence := h.sequence
  submitted := h.submitted
  waits := hwaits
  saved := hsaved

/-- One server acts and its peer stays as it is. -/
theorem serve (h : Hosted svc gob hs q log started) {s : Fin n}
    {nd : Lib.Node S E O A K (List σ)} (hwaits : Waits (hs.raft.nodes s) nd (q.handed s) log)
    (hsaved : nd.saved = (hs.nodes s).saved) :
    Hosted svc gob ⟨hs.raft, Function.update hs.nodes s nd⟩ q log started where
  raft := h.raft
  labelled := h.labelled
  sequence := h.sequence
  submitted := h.submitted
  waits := (Function.forall_update_iff hs.nodes fun t nd ↦
    Waits (hs.raft.nodes t) nd (q.handed t) log).mpr ⟨hwaits, fun t _ ↦ h.waits t⟩
  saved := (Function.forall_update_iff hs.nodes fun _ nd ↦ nd.saved = (svc.blank, 0)).mpr
    ⟨hsaved.trans (h.saved s), fun t _ ↦ h.saved t⟩

/-- One server and its peer act together. -/
theorem jointly (h : Hosted svc gob hs q log started) {a : Action n O σ} {raft : World n O σ}
    {s : Fin n} {nd : Lib.Node S E O A K (List σ)}
    (hadv : Advanced gob a raft q q' (log ++ ops) (new ++ started))
    (hpeers : ∀ t, t ≠ s → raft.nodes t = hs.raft.nodes t)
    (hhanded : ∀ t, t ≠ s → q'.handed t = q.handed t)
    (hwaits : Waits (raft.nodes s) nd (q'.handed s) (log ++ ops))
    (hsaved : nd.saved = (hs.nodes s).saved) :
    Hosted svc gob ⟨raft, Function.update hs.nodes s nd⟩ q' (log ++ ops) (new ++ started) where
  raft := hadv.raft
  labelled := hadv.labelled
  sequence := hadv.sequence
  submitted := hadv.submitted
  waits := by
    refine (Function.forall_update_iff hs.nodes fun t nd ↦
      Waits (raft.nodes t) nd (q'.handed t) (log ++ ops)).mpr ⟨hwaits, fun t hts ↦ ?_⟩
    rw [hpeers t hts, hhanded t hts]
    exact (h.waits t).keep rfl ops
  saved := (Function.forall_update_iff hs.nodes fun _ nd ↦ nd.saved = (svc.blank, 0)).mpr
    ⟨hsaved.trans (h.saved s), fun t _ ↦ h.saved t⟩

section Step

variable [DecidableEq K] [DecidableEq O] [DecidableEq σ] {replies : List (E × A)}

/-- The services may have taken the step with the sequence `log`, which may then grow by operations
that have been started. -/
def Simulated (svc : Lib.Service S E O A T K (List σ)) (gob : Gob (RaftImage n O) σ)
    (log started : List O) (a : HostAction n E O σ) (hs hs' : Hosts n S E O A K σ)
    (replies : List (E × A)) : Prop :=
  ∃ q' ops new, Serves svc log a hs.nodes hs'.nodes new replies ∧
    (∀ op ∈ ops, op ∈ new ++ started) ∧ Hosted svc gob hs' q' (log ++ ops) (new ++ started)

theorem raft_step (h : Hosted svc gob hs q log started) {a : Action n O σ}
    (hok : HostsAgree hs (.raft a : HostAction n E O σ))
    (hstep : hs.step svc gob (.raft a) = some (hs', replies)) :
    Simulated svc gob log started (.raft a) hs hs' replies := by
  simp only [Hosts.step] at hstep
  split at hstep
  · rename_i hinternal
    obtain ⟨raft, hraft, heq⟩ := Option.map_eq_some_iff.mp hstep
    obtain ⟨rfl, rfl⟩ := Prod.mk.inj heq
    have hstep' := World.step_inv hraft
    have hagree : Agreeing hs.raft a := ⟨noCompaction_of_internal hinternal, hok⟩
    have hnew : ∀ s c, a = .start s c → (hs.raft.nodes s).rf.state = .leader →
        ∃ op, op ∈ [] ++ started ∧ some op = c := by
      rintro s c rfl _
      cases hinternal
    obtain ⟨q', ops, hops, hadv⟩ := h.advance [] hagree hstep' hnew
    exact ⟨q', ops, [], .idle, hops,
      of_advanced hadv (h.waits_internal hinternal hstep' hadv) h.saved⟩
  · cases hstep

theorem serve_step (h : Hosted svc gob hs q log started) {s : Fin n} {action : Lib.NodeAction E}
    (hstep : hs.step svc gob (.serve s action) = some (hs', replies)) :
    Simulated svc gob log started (.serve s action) hs hs' replies := by
  simp only [Hosts.step] at hstep
  split at hstep
  · rename_i halone
    obtain ⟨out, hout, heq⟩ := Option.map_eq_some_iff.mp hstep
    obtain ⟨rfl, rfl⟩ := Prod.mk.inj heq
    obtain ⟨hlog, hstarted, happ, hidle, hsaved⟩ := serve_spec halone hout log
    refine ⟨q, [], out.started, .node s action hlog (fun env henv ↦ by rw [henv]),
      fun op hop ↦ absurd hop List.not_mem_nil, ?_⟩
    rw [hstarted, List.append_nil]
    exact h.serve ((h.waits s).serve happ hidle) hsaved
  · cases hstep

theorem start_step (h : Hosted svc gob hs q log started) {s : Fin n} {k : Nat}
    (hstep : hs.step svc gob (.start s k) = some (hs', replies)) :
    Simulated svc gob log started (.start s k) hs hs' replies := by
  simp only [Hosts.step, Hosts.start] at hstep
  split at hstep
  · rename_i env hk
    obtain ⟨out, hout, heq⟩ := Option.map_eq_some_iff.mp hstep
    obtain ⟨rfl, rfl⟩ := Prod.mk.inj heq
    obtain ⟨hstarted, happ, hidle, hsaved⟩ := handler_start_spec hk hout
    have hstep' : Step gob hs.raft (.start s (some (svc.request env)))
        (hs.raft.start gob s (some (svc.request env))) := .start s _ rfl
    have hnew : ∀ t c, (.start s (some (svc.request env)) : Action n O σ) = .start t c →
        (hs.raft.nodes t).rf.state = .leader → ∃ op, op ∈ out.started ++ started ∧ some op = c := by
      rintro t c ⟨⟩ hlead
      refine ⟨svc.request env, List.mem_append_left _ ?_, rfl⟩
      rw [hstarted, show ((hs.raft.nodes s).rf.start gob _).2.2.2 = true by
        simp only [Raft.start, if_pos hlead]]
      exact List.mem_singleton_self _
    have hagree : Agreeing hs.raft (.start s (some (svc.request env))) :=
      ⟨trivial, trivial, trivial⟩
    obtain ⟨q', ops, hops, hadv⟩ := h.advance out.started hagree hstep' hnew
    refine ⟨q', ops, out.started, .node s (.start k _ _) hout nofun, hops,
      h.jointly hadv ?_ ?_ ?_ hsaved⟩
    · exact fun t hts ↦ Function.update_of_ne hts _ _
    · exact fun t _ ↦ hadv.kept t nofun nofun
    · rw [hadv.kept s nofun nofun]
      refine ((h.waits s).keep ?_ ops).serve happ hidle
      show (Function.update hs.raft.nodes s _ s).applyCh = _
      rw [Function.update_self]
  · cases hstep

/-- The message that `fetchApply` has received is the next operation. -/
theorem apply_step (h : Hosted svc gob hs q log started) {s : Fin n}
    (hstep : hs.step svc gob (.apply s) = some (hs', replies)) :
    Simulated svc gob log started (.apply s) hs hs' replies := by
  simp only [Hosts.step, Hosts.apply] at hstep
  split at hstep
  · cases hstep
  · rename_i msg hmsg
    split at hstep
    · split at hstep
      · cases hstep
      · rename_i hvalid _ op hcommand
        obtain ⟨out, hout, heq⟩ := Option.map_eq_some_iff.mp hstep
        obtain ⟨rfl, rfl⟩ := Prod.mk.inj heq
        cases h.waits s with
        | received msg' op' hch _ hidle happ hop hcommand' hindex =>
            rw [hmsg, Option.some.injEq] at hch
            subst hch
            rw [hcommand, Option.some.injEq] at hcommand'
            subst hcommand'
            rw [hindex] at hout
            refine ⟨q, [], out.started,
              .node s .apply (Option.bind_eq_some_iff.mpr ⟨op, hop, hout⟩) (by simp),
              fun op hop ↦ absurd hop List.not_mem_nil, ?_⟩
            simp only [Lib.Node.take, hidle] at hout
            rw [← Option.some.inj hout, List.append_nil]
            exact h.serve (.working msg hmsg hvalid (by simp) happ) rfl
        | free hch =>
            rw [hmsg] at hch
            cases hch
        | working _ _ _ hbusy =>
            unfold Lib.Node.take at hout
            split at hout
            · rename_i hidle
              exact absurd hidle hbusy
            · cases hout
        | snapshot msg' hch hinvalid =>
            rw [hmsg, Option.some.injEq] at hch
            rw [hch, hinvalid] at hvalid
            cases hvalid
    · cases hstep

theorem getState_step (h : Hosted svc gob hs q log started) {s : Fin n}
    (hstep : hs.step svc gob (.getState s) = some (hs', replies)) :
    Simulated svc gob log started (.getState s) hs hs' replies := by
  simp only [Hosts.step, Hosts.getState] at hstep
  obtain ⟨out, hout, heq⟩ := Option.map_eq_some_iff.mp hstep
  obtain ⟨rfl, rfl⟩ := Prod.mk.inj heq
  obtain ⟨hstarted, happ, hidle, hsaved⟩ := applier_getState_spec hout
  refine ⟨q, [], out.started, .node s (.getState _) hout nofun,
    fun op hop ↦ absurd hop List.not_mem_nil, ?_⟩
  rw [hstarted, List.append_nil]
  exact h.serve ((h.waits s).serve happ hidle) hsaved

/-- The service has reported the command it was working on. -/
theorem done_step (h : Hosted svc gob hs q log started) {s : Fin n}
    (hstep : hs.step svc gob (.done s) = some (hs', replies)) :
    Simulated svc gob log started (.done s) hs hs' replies := by
  simp only [Hosts.step, Hosts.done] at hstep
  obtain ⟨out, hout, heq⟩ := Option.map_eq_some_iff.mp hstep
  obtain ⟨rfl, rfl⟩ := Prod.mk.inj heq
  have hstep' : Step gob hs.raft (.serviceDone s) (hs.raft.serviceDone s) := .serviceDone s rfl
  have hagree : Agreeing hs.raft (.serviceDone s) := ⟨trivial, trivial, trivial⟩
  obtain ⟨hstarted, hbusy, happ, hidle, hsaved⟩ := applier_snapshot_spec hout
  obtain ⟨q', ops, hops, hadv⟩ := h.advance out.started hagree hstep' (fun _ _ ha ↦ nomatch ha)
  refine ⟨q', ops, out.started, .node s (.snapshot false) hout nofun, hops,
    h.jointly hadv ?_ ?_ ?_ hsaved⟩
  · exact fun t hts ↦ Function.update_of_ne hts _ _
  · exact fun t _ ↦ hadv.kept t nofun nofun
  · rw [hadv.kept s nofun nofun]
    refine .free ?_ hidle ?_
    · show (Function.update hs.raft.nodes s _ s).applyCh = _
      rw [Function.update_self]
    · rw [happ]
      cases h.waits s with
      | working _ _ _ _ hhanded => exact hhanded
      | free _ hold | received _ _ _ _ hold | snapshot _ _ _ hold => exact absurd hold hbusy

/-- A snapshot that is offered without compaction has index `0`, and Raft refuses it. -/
theorem install_step (h : Hosted svc gob hs q log started) {s : Fin n}
    (hstep : hs.step svc gob (.install s) = some (hs', replies)) :
    Simulated svc gob log started (.install s) hs hs' replies := by
  simp only [Hosts.step, Hosts.install] at hstep
  split at hstep
  · cases hstep
  · rename_i msg hmsg
    split at hstep
    · cases hstep
    · rename_i hinvalid
      split at hstep
      · rename_i rf accepted raft hcond hraft
        obtain ⟨rfl, rfl⟩ := Prod.mk.inj (Option.some.inj hstep)
        have hstep' : Step gob hs.raft (.condInstallSnapshot s) raft := World.step_inv hraft
        have hagree : Agreeing hs.raft (.condInstallSnapshot s) := ⟨trivial, trivial, trivial⟩
        obtain ⟨g, K, hseq⟩ := h.raft
        have hle := hseq.flat.not_installed hstep' hmsg
        simp only [Raft.condInstallSnapshot, if_pos hle, Option.some.injEq, Prod.mk.injEq] at hcond
        obtain ⟨rfl, rfl⟩ := hcond
        obtain ⟨q', ops, hops, hadv⟩ := h.advance [] hagree hstep' (fun _ _ ha ↦ nomatch ha)
        refine ⟨q', ops, [], ?_, hops, h.jointly hadv ?_ ?_ ?_ rfl⟩
        · show Serves svc log _ hs.nodes (Function.update hs.nodes s (hs.nodes s)) [] []
          rw [Function.update_eq_self]
          exact .idle
        · intro t hts
          cases hstep' with
          | condInstallSnapshot _ hnd => exact Function.update_of_ne hts _ _
        · exact fun t _ ↦ hadv.kept t nofun nofun
        · rw [hadv.kept s nofun nofun]
          cases h.waits s with
          | snapshot _ _ _ hidle happ =>
              refine .free ?_ hidle happ
              cases hstep' with
              | condInstallSnapshot _ hnd =>
                  show (Function.update hs.raft.nodes s _ s).applyCh = _
                  rw [Function.update_self]
          | free hch =>
              rw [hmsg] at hch
              cases hch
          | received msg' _ hch hvalid | working msg' hch hvalid =>
              rw [hmsg, Option.some.injEq] at hch
              rw [hch] at hinvalid
              exact absurd hvalid hinvalid
      · cases hstep

/-- Without compaction the next incarnation starts from nothing. -/
theorem crash_step (hblank : svc.blank = []) (h : Hosted svc gob hs q log started) {s : Fin n}
    (hstep : hs.step svc gob (.crash s) = some (hs', replies)) :
    Simulated svc gob log started (.crash s) hs hs' replies := by
  simp only [Hosts.step, Hosts.crash] at hstep
  split at hstep
  · cases hstep
  · rename_i raft hraft
    obtain ⟨rfl, rfl⟩ := Prod.mk.inj (Option.some.inj hstep)
    have hstep' : Step gob hs.raft (.crash s) raft := World.step_inv hraft
    have hagree : Agreeing hs.raft (.crash s) := ⟨trivial, trivial, trivial⟩
    obtain ⟨q', ops, hops, hadv⟩ := h.advance [] hagree hstep' (fun _ _ ha ↦ nomatch ha)
    obtain ⟨g, K, hseq⟩ := hadv.raft
    have hboot : Hosts.boot svc (raft.nodes s).rf = (hs.nodes s).restart svc := by
      obtain ⟨hindex, hdata⟩ := hseq.flat.blank_snapshot s
      simp only [Hosts.boot, Lib.Node.restart, hindex, hdata, h.saved s, hblank, Int.toNat_zero]
    refine ⟨q', ops, [], ?_, hops, h.jointly hadv ?_ ?_ ?_ ?_⟩
    · show Serves svc log _ hs.nodes (Function.update hs.nodes s (Hosts.boot svc _)) [] []
      rw [hboot]
      exact .node s .restart rfl nofun
    · intro t hts
      cases hstep' with
      | crash _ hnd => exact Function.update_of_ne hts _ _
    · intro t hts
      exact hadv.kept t nofun (fun heq ↦ hts (Action.crash.inj heq).symm)
    · rw [hadv.restarted s rfl, hboot]
      refine .free ?_ rfl ?_
      · cases hstep' with
        | crash _ hnd =>
            show (Function.update hs.raft.nodes s _ s).applyCh = _
            rw [Function.update_self]
      · show (hs.nodes s).saved.2 = 0
        rw [h.saved s]
    · rw [hboot]
      rfl

/-- The services cannot tell the peers from one sequence of operations. -/
theorem step (hblank : svc.blank = []) (h : Hosted svc gob hs q log started)
    {a : HostAction n E O σ} (hok : HostsAgree hs a)
    (hstep : hs.step svc gob a = some (hs', replies)) :
    Simulated svc gob log started a hs hs' replies := by
  cases a with
  | raft a => exact h.raft_step hok hstep
  | serve s action => exact h.serve_step hstep
  | start s k => exact h.start_step hstep
  | apply s => exact h.apply_step hstep
  | getState s => exact h.getState_step hstep
  | done s => exact h.done_step hstep
  | install s => exact h.install_step hstep
  | crash s => exact h.crash_step hblank hstep

end Step

end Hosted

end Lab6824
