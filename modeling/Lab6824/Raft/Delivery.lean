import Lab6824.Raft.Applier

/-!
# Delivery — the order of what a service is handed on `applyCh`

`updateApplied` collects a batch of commands under the lock and sends it without; `InstallSnapshot`
sends its message from a goroutine of its own.  A snapshot that is accepted while a batch is being
sent overtakes the rest of the batch.  Where that does not happen, the service gets the commands one
by one from the snapshot it starts with, without gaps.
-/

namespace Lab6824

variable {n : Nat} {C σ : Type} {gob : Gob (RaftImage n C) σ}

/-! ## What a service acts on -/

/-- A command, or a snapshot that `CondInstallSnapshot` has accepted. -/
inductive Delivery where
  | command (index : Int)
  | snapshot (index : Int)
  deriving DecidableEq, Repr

def Delivery.index : Delivery → Int
  | .command index => index
  | .snapshot index => index

/-- The delivery may come when the state of the service is that of index `last`. -/
def Delivery.Follows (last : Int) : Delivery → Prop
  | .command index => index = last + 1
  | .snapshot index => last ≤ index

instance (last : Int) (d : Delivery) : Decidable (d.Follows last) := by
  unfold Delivery.Follows
  induction d using Delivery.casesOn <;> infer_instance

/-- Each delivery may come after the one before it. -/
def InSequence : Int → List Delivery → Prop
  | _, [] => True
  | last, d :: ds => d.Follows last ∧ InSequence d.index ds

/-- The index up to which the service has come. -/
def position : Int → List Delivery → Int
  | last, [] => last
  | _, d :: ds => position d.index ds

theorem position_concat (last : Int) (ds : List Delivery) (d : Delivery) :
    position last (ds ++ [d]) = d.index := by
  induction ds generalizing last with
  | nil => rfl
  | cons e ds ih => exact ih e.index

theorem inSequence_concat {last : Int} {ds : List Delivery} {d : Delivery}
    (h : InSequence last ds) (hd : d.Follows (position last ds)) : InSequence last (ds ++ [d]) := by
  induction ds generalizing last with
  | nil => exact ⟨hd, trivial⟩
  | cons e ds ih => exact ⟨h.1, ih h.2 hd⟩

theorem InSequence.lt_of_command {last k : Int} {ds : List Delivery} (h : InSequence last ds)
    (hk : .command k ∈ ds) : last < k := by
  induction ds generalizing last with
  | nil => cases hk
  | cons d ds ih =>
      obtain ⟨hd, hrest⟩ := h
      rcases List.mem_cons.mp hk with rfl | hmem
      · change k = last + 1 at hd
        omega
      · have hlt := ih hrest hmem
        have hle : last ≤ d.index := by
          cases d with
          | command i => exact (Int.le_add_one (le_refl last)).trans (le_of_eq hd.symm)
          | snapshot i => exact hd
        omega

/-- No command that a snapshot covers comes after it. -/
theorem InSequence.snapshot_lt {last i k : Int} {ds ds' : List Delivery}
    (h : InSequence last (ds ++ .snapshot i :: ds')) (hk : .command k ∈ ds') : i < k := by
  induction ds generalizing last with
  | nil => exact h.2.lt_of_command hk
  | cons d ds ih => exact ih h.2

/-- What server `s` has delivered, the oldest first. -/
def deliveries (s : Fin n) : List (Event n C σ) → List Delivery
  | [] => []
  | .applied s' index _ :: tr =>
    if s' = s then deliveries s tr ++ [.command index] else deliveries s tr
  | .installed s' index _ _ :: tr =>
    if s' = s then deliveries s tr ++ [.snapshot index] else deliveries s tr
  | _ :: tr => deliveries s tr

/-! ## What a step does to the deliveries of one server -/

/-- The actions that may set `lastApplied` at server `t`. -/
def Action.SetsApplied (t : Fin n) : Action n C σ → Prop
  | .updateApplied s | .condInstallSnapshot s | .snapshot s _ _ | .crash s => s = t
  | _ => False

theorem IndexStep.lastApplied_eq {w : World n C σ} {a : Action n C σ} {t : Fin n}
    {rf' : Raft n C σ} (h : IndexStep w a t rf')
    (hrf : a.SetsApplied t → rf' = (w.nodes t).rf) :
    rf'.lastApplied = (w.nodes t).rf.lastApplied := by
  cases h with
  | same _ hi | appended _ _ _ _ hi | merged _ _ _ _ _ _ _ hi | committed _ _ _ _ _ _ hi =>
      exact (indices_eq.mp hi).2.2.2.2
  | restarted ha | applied ha | installed _ ha | compacted _ _ _ _ ha =>
      subst ha
      rw [hrf rfl]

/-- The step leaves server `s` with node `nd'` and deliveries `ds'`. -/
inductive DeliveryStep (w : World n C σ) (a : Action n C σ) (s : Fin n) (nd' : Node n C σ)
    (ds' : List Delivery) : Prop where
  | quiet (hrf : a.SetsApplied s → nd'.rf = (w.nodes s).rf) (hbatch : nd'.batch = (w.nodes s).batch)
      (hawake : nd'.applierAwake = true → (w.nodes s).applierAwake = true ∨ (w.nodes s).batch = [])
      (hds : ds' = deliveries s w.trace)
  | crashed (ha : a = .crash s)
  | compacted (i : Int) (data : List σ) (ha : a = .snapshot s i data)
      (hnew : (w.nodes s).rf.lastIncludedIndex < i)
      (hrf : nd'.rf.lastApplied =
        if i > (w.nodes s).rf.lastApplied then i else (w.nodes s).rf.lastApplied)
      (hbatch : nd'.batch = (w.nodes s).batch)
      (hawake : nd'.applierAwake = (w.nodes s).applierAwake) (hds : ds' = deliveries s w.trace)
  | built (hold : (w.nodes s).applierAwake = true)
      (hrf : (w.nodes s).rf.updateApplied = some (nd'.rf, nd'.batch))
      (hawake : nd'.applierAwake = false) (hds : ds' = deliveries s w.trace)
  | sent (msg : ApplyMsg C σ) (hrf : nd'.rf = (w.nodes s).rf)
      (hbatch : (w.nodes s).batch = msg :: nd'.batch)
      (hawake : nd'.applierAwake = (w.nodes s).applierAwake)
      (hds : ds' = deliveries s w.trace ++ [.command msg.commandIndex])
  | installed (msg : ApplyMsg C σ) (ha : a = .condInstallSnapshot s)
      (hch : (w.nodes s).applyCh = some msg)
      (hnew : (w.nodes s).rf.commitIndex < msg.snapshotIndex)
      (hbase : nd'.rf.lastIncludedIndex = msg.snapshotIndex)
      (hrf : nd'.rf.lastApplied = msg.snapshotIndex) (hbatch : nd'.batch = (w.nodes s).batch)
      (hds : ds' = deliveries s w.trace ++ [.snapshot msg.snapshotIndex])

theorem DeliveryStep.update {w : World n C σ} {a : Action n C σ} {s : Fin n} {nd : Node n C σ}
    {tr : List (Event n C σ)} (hother : ∀ t, t ≠ s → deliveries t tr = deliveries t w.trace)
    (hself : DeliveryStep w a s nd (deliveries s tr)) (t : Fin n) :
    DeliveryStep w a t (Function.update w.nodes s nd t) (deliveries t tr) := by
  refine (Function.forall_update_iff w.nodes fun t nd ↦
    DeliveryStep w a t nd (deliveries t tr)).mpr ⟨hself, ?_⟩ t
  intro t hts
  exact .quiet (fun _ ↦ rfl) rfl Or.inl (hother t hts)

theorem DeliveryStep.silent {w : World n C σ} {a : Action n C σ} {s : Fin n} {nd : Node n C σ}
    {tr : List (Event n C σ)} (htr : ∀ t, deliveries t tr = deliveries t w.trace)
    (hself : DeliveryStep w a s nd (deliveries s w.trace)) (t : Fin n) :
    DeliveryStep w a t (Function.update w.nodes s nd t) (deliveries t tr) := by
  refine .update (fun t _ ↦ htr t) ?_ t
  rw [htr]
  exact hself

theorem step_delivery {w w' : World n C σ} {a : Action n C σ} (hstep : Step gob w a w')
    (t : Fin n) : DeliveryStep w a t (w'.nodes t) (deliveries t w'.trace) := by
  cases hstep with
  | timeoutLeader | roundIdle => exact .quiet (fun _ ↦ rfl) rfl Or.inl rfl
  | requestVote env hnd henv hv =>
      subst hnd
      refine .silent (fun t ↦ ?_) ?_ t
      · dsimp only
        split <;> rfl
      · exact .quiet False.elim rfl Or.inl rfl
  | wakeApplier s hnd hrf hch hawake hbatch =>
      subst hnd hrf
      refine .silent (fun _ ↦ rfl) ?_ t
      exact .quiet False.elim rfl (fun _ ↦ Or.inr hbatch) rfl
  | updateApplied s hnd hawake hv =>
      subst hnd
      refine .silent (fun _ ↦ rfl) ?_ t
      exact .built hawake hv rfl rfl
  | sendCommand s hnd hch hbatch =>
      subst hnd
      refine .update (fun t ht ↦ ?_) ?_ t
      · exact if_neg (Ne.symm ht)
      · exact .sent _ rfl hbatch rfl (if_pos rfl)
  | condInstallSnapshot s hnd hch hvalid hv =>
      subst hnd
      rcases Raft.condInstallSnapshot_cases hv with ⟨rfl, _, rfl⟩ | ⟨rfl, hnew, rest, rf₁, rfl, rfl⟩
      · refine .silent (fun _ ↦ rfl) ?_ t
        exact .quiet (fun _ ↦ rfl) rfl Or.inl rfl
      · refine .update (fun t ht ↦ ?_) ?_ t
        · exact if_neg (Ne.symm ht)
        · exact .installed _ rfl hch hnew rfl rfl rfl (if_pos rfl)
  | snapshot s index data hnd hv =>
      subst hnd
      rcases Raft.snapshot_cases hv with ⟨rfl, _, rfl⟩ | ⟨rfl, hnew, d, rest, rf₁, _, _, rfl, rfl⟩
      · refine .silent (fun _ ↦ rfl) ?_ t
        exact .quiet (fun _ ↦ rfl) rfl Or.inl rfl
      · refine .silent (fun t ↦ ?_) ?_ t
        · dsimp only [noteTaken]
          split <;> rfl
        · exact .compacted index data rfl hnew rfl rfl rfl rfl
  | crash s hnd hmake =>
      refine .silent (fun _ ↦ rfl) ?_ t
      exact .crashed rfl
  -- the remaining steps hold nothing of the applier
  | campaign _ hnd | electSkip _ _ hnd | electSend _ _ hnd | voteRetire _ _ _ _ hnd
  | voteIgnore _ _ _ _ hnd | voteCount _ _ _ _ hnd | voteLead _ _ _ _ hnd | roundSnapshot _ _ hnd
  | roundAppend _ _ hnd | appendEntries _ hnd | appendReply _ _ _ hnd | installSnapshot _ hnd
  | snapshotReply _ _ _ hnd | start _ _ hnd | sendSnapshot _ _ hnd | serviceDone _ hnd =>
      subst hnd
      refine .silent (fun _ ↦ rfl) ?_ t
      exact .quiet False.elim rfl Or.inl rfl

/-! ## The conditions -/

/-- The service compacts only what it has been handed. -/
def CompactsApplied (w : World n C σ) : Action n C σ → Prop
  | .snapshot s i _ => (w.nodes s).rf.lastIncludedIndex < i → i ≤ (w.nodes s).rf.lastApplied
  | _ => True

instance (w : World n C σ) (a : Action n C σ) : Decidable (CompactsApplied w a) := by
  unfold CompactsApplied
  induction a using Action.casesOn <;> infer_instance

/-- A snapshot is accepted only when `updateApplied` has sent all it has collected. -/
def InstallsIdle (w : World n C σ) : Action n C σ → Prop
  | .condInstallSnapshot s =>
    ∀ msg ∈ (w.nodes s).applyCh, (w.nodes s).rf.commitIndex < msg.snapshotIndex →
      (w.nodes s).batch = []
  | _ => True

instance (w : World n C σ) (a : Action n C σ) : Decidable (InstallsIdle w a) := by
  unfold InstallsIdle
  induction a using Action.casesOn <;> infer_instance

/-- All conditions under which the service is served in order. -/
def DeliversInOrder (w : World n C σ) (a : Action n C σ) : Prop :=
  NoRival w a ∧ CompactsApplied w a ∧ CommitsAhead w a ∧ KeepsCommitted w a ∧ InstallsIdle w a

instance (w : World n C σ) (a : Action n C σ) : Decidable (DeliversInOrder w a) := by
  unfold DeliversInOrder
  infer_instance

/-- What has been handed to the service is committed. -/
theorem DeliversInOrder.appliesInside {w : World n C σ} {a : Action n C σ} (h : ApplierInv gob w)
    (hok : DeliversInOrder w a) : AppliesInside w a := by
  obtain ⟨hrival, hcut, hahead, hkeep, _⟩ := hok
  refine ⟨hrival, ?_, hahead, hkeep⟩
  cases a with
  | snapshot s i data =>
      intro hnew
      have hle : i ≤ (w.nodes s).rf.lastApplied := hcut hnew
      have hle' := (h.nodes s).ahead
      omega
  | _ => trivial

/-! ## The order of deliveries -/

/-- The service has come to index `d`, and the batch goes on from there up to `lastApplied`. -/
structure Node.Ready (nd : Node n C σ) (d : Int) : Prop where
  batch : ∀ (j : Nat) msg, nd.batch[j]? = some msg → msg.commandIndex = d + 1 + j
  applied : nd.rf.lastApplied = d + nd.batch.length
  idle : nd.applierAwake = true → nd.batch = []

/-- The batch that `updateApplied` collects, by position. -/
theorem Raft.updateApplied_batch {rf rf' : Raft n C σ} {msgs : List (ApplyMsg C σ)}
    (h : rf.updateApplied = some (rf', msgs)) :
    msgs.length = (rf.commitIndex - rf.lastApplied).toNat ∧
      ∀ (j : Nat) msg, msgs[j]? = some msg → msg.commandIndex = rf.lastApplied + 1 + j := by
  unfold Raft.updateApplied at h
  dsimp only at h
  split at h
  · cases h
  · rename_i hmap
    simp only [Option.some.injEq, Prod.mk.injEq] at h
    obtain ⟨_, rfl⟩ := h
    have hall := Lib.mapM_forall₂ hmap
    have hlen := hall.length_eq
    rw [List.length_range] at hlen
    refine ⟨hlen.symm, fun j msg hj ↦ ?_⟩
    obtain ⟨hlt, hget⟩ := List.getElem?_eq_some_iff.mp hj
    have hcmd := hall.get (by rw [List.length_range]; omega) hlt
    simp only [List.get_eq_getElem, List.getElem_range, hget] at hcmd
    unfold Raft.commandMsg at hcmd
    split at hcmd
    · cases hcmd
    · rw [← Option.some.inj hcmd]
      dsimp only
      omega

namespace Node.Ready

variable {nd nd' : Node n C σ} {d : Int}

theorem of_batch_nil (hbatch : nd.batch = []) (happ : nd.rf.lastApplied = d) : nd.Ready d := by
  refine ⟨fun j msg hj ↦ ?_, ?_, fun _ ↦ hbatch⟩
  · rw [hbatch] at hj
    cases hj
  · rw [hbatch, happ]
    exact (Int.add_zero d).symm

theorem keep (h : nd.Ready d) (happ : nd'.rf.lastApplied = nd.rf.lastApplied)
    (hbatch : nd'.batch = nd.batch)
    (hawake : nd'.applierAwake = true → nd.applierAwake = true ∨ nd.batch = []) :
    nd'.Ready d := by
  refine ⟨hbatch ▸ h.batch, ?_, fun hwoken ↦ ?_⟩
  · rw [happ, hbatch]
    exact h.applied
  · rw [hbatch]
    exact (hawake hwoken).elim h.idle id

/-- Of the applier that is awake the batch goes on up to `commitIndex`. -/
theorem collect (h : nd.Ready d) (hwoken : nd.applierAwake = true)
    (hle : nd.rf.lastApplied ≤ nd.rf.commitIndex)
    (hrf : nd.rf.updateApplied = some (nd'.rf, nd'.batch))
    (hawake : nd'.applierAwake = false) : nd'.Ready d := by
  obtain ⟨hlen, hnum⟩ := Raft.updateApplied_batch hrf
  have hcommit : nd'.rf.lastApplied = nd.rf.commitIndex := by rw [Raft.updateApplied_rf hrf]
  have happ := h.applied
  rw [h.idle hwoken, List.length_nil] at happ
  refine ⟨fun j msg hj ↦ ?_, by omega, fun hwoken' ↦ ?_⟩
  · rw [hnum j msg hj]
    omega
  · rw [hawake] at hwoken'
    cases hwoken'

/-- The first message of the batch is the next command, and the rest goes on from there. -/
theorem send {msg : ApplyMsg C σ} (h : nd.Ready d) (hbatch : nd.batch = msg :: nd'.batch)
    (hrf : nd'.rf = nd.rf) (hawake : nd'.applierAwake = nd.applierAwake) :
    msg.commandIndex = d + 1 ∧ nd'.Ready msg.commandIndex := by
  have hfirst := h.batch 0 msg (by rw [hbatch]; rfl)
  have happ := h.applied
  rw [hbatch, List.length_cons] at happ
  refine ⟨by omega, fun j msg' hj ↦ ?_, by rw [hrf]; omega, fun hwoken ↦ ?_⟩
  · have hnext := h.batch (j + 1) msg' (by rw [hbatch, List.getElem?_cons_succ]; exact hj)
    omega
  · rw [hawake] at hwoken
    rw [h.idle hwoken] at hbatch
    cases hbatch

end Node.Ready

/-- One step: the new delivery, if any, follows the ones before it. -/
theorem ready_step {w w' : World n C σ} {a : Action n C σ} {s : Fin n} {last : Int}
    {ds : List Delivery} (h : ApplierInv gob w) (hok : DeliversInOrder w a) (hcrash : a ≠ .crash s)
    (hstep : Step gob w a w') (hseq : InSequence last ds)
    (hready : (w.nodes s).Ready (position last ds)) :
    ∃ new, deliveries s w'.trace = deliveries s w.trace ++ new ∧ InSequence last (ds ++ new) ∧
      (w'.nodes s).Ready (position last (ds ++ new)) := by
  obtain ⟨_, hcut, _, _, hidle⟩ := hok
  have hindex := step_indices hstep h.durable s
  have hcase := step_delivery hstep s
  generalize w'.nodes s = nd' at hindex hcase ⊢
  generalize deliveries s w'.trace = ds' at hcase ⊢
  -- a step without a delivery
  have hsilent : ds' = deliveries s w.trace → nd'.Ready (position last ds) →
      ∃ new, ds' = deliveries s w.trace ++ new ∧ InSequence last (ds ++ new) ∧
        nd'.Ready (position last (ds ++ new)) := by
    intro hds hready'
    refine ⟨[], by rw [hds, List.append_nil], ?_, ?_⟩
    · rwa [List.append_nil]
    · rwa [List.append_nil]
  cases hcase with
  | crashed ha => exact absurd ha hcrash
  | quiet hrf hbatch hawake hds =>
      exact hsilent hds (hready.keep (hindex.lastApplied_eq hrf) hbatch hawake)
  | compacted i data ha hnew hrf hbatch hawake hds =>
      subst ha
      have hle : i ≤ (w.nodes s).rf.lastApplied := hcut hnew
      rw [if_neg (by omega)] at hrf
      exact hsilent hds (hready.keep hrf hbatch fun hwoken ↦ Or.inl (hawake ▸ hwoken))
  | built hold hrf hawake hds =>
      have hge := (h.nodes s).base_le_commit hold
      have hahead := (h.nodes s).ahead
      exact hsilent hds (hready.collect hold (by omega) hrf hawake)
  | sent msg hrf hbatch hawake hds =>
      obtain ⟨hnext, hready'⟩ := hready.send hbatch hrf hawake
      refine ⟨[.command msg.commandIndex], hds, inSequence_concat hseq hnext, ?_⟩
      rw [position_concat]
      exact hready'
  | installed msg ha hch hnew hbase hrf hbatch hds =>
      subst ha
      have hnone : (w.nodes s).batch = [] := hidle msg hch hnew
      have hle := hindex.base_le
      have hahead := (h.nodes s).ahead
      have happ := hready.applied
      rw [hnone, List.length_nil] at happ
      refine ⟨[.snapshot msg.snapshotIndex], hds, inSequence_concat hseq ?_, ?_⟩
      · show _ ≤ msg.snapshotIndex
        omega
      · rw [position_concat]
        exact .of_batch_nil (hbatch.trans hnone) hrf

theorem ApplierInv.delivers {w w' : World n C σ} {a : Action n C σ} (h : ApplierInv gob w)
    (hok : DeliversInOrder w a) (hstep : Step gob w a w') : ApplierInv gob w' :=
  h.step (hok.appliesInside h) hstep

/-- An incarnation of server `s` begins after these actions. -/
def StartsUp (s : Fin n) (as : List (Action n C σ)) : Prop :=
  as = [] ∨ ∃ pre, as = pre ++ [.crash s]

/-- A new incarnation is ready to go on from its snapshot. -/
theorem ready_of_startsUp [DecidableEq C] [DecidableEq σ] {v : World n C σ} {s : Fin n}
    {pre : List (Action n C σ)} (hstart : StartsUp s pre)
    (hok : Lib.Along (World.step gob) DeliversInOrder World.init pre)
    (hrun : Lib.run (World.step gob) World.init pre = some v) :
    (v.nodes s).Ready (v.nodes s).rf.lastIncludedIndex := by
  rcases hstart with rfl | ⟨pre, rfl⟩
  · rw [Lib.run_nil, Option.some.injEq] at hrun
    subst hrun
    exact ⟨nofun, rfl, fun _ ↦ rfl⟩
  · obtain ⟨u, hu, hlast⟩ := Lib.run_concat.mp hrun
    have hinv : ApplierInv gob u :=
      Lib.run_invariant (fun _ _ _ h hok hstep ↦ h.delivers hok (World.step_inv hstep))
        ApplierInv.init ((Lib.along_append hu).mp hok).1 hu
    have hstep := World.step_inv hlast
    have hres := step_crash hstep hinv.durable
    cases hstep with
    | crash _ hnd hmake =>
        dsimp only at hres ⊢
        rw [Function.update_self] at hres ⊢
        apply Node.Ready.of_batch_nil rfl
        rw [hres.lastApplied, hres.lastIncludedIndex]

/-- In a run that meets the conditions each incarnation hands its service the commands after its
snapshot one by one; a snapshot that is accepted on the way is not older than what the service has,
and only commands after it follow. -/
theorem delivered_in_order [DecidableEq C] [DecidableEq σ] {gob : Gob (RaftImage n C) σ}
    {v w : World n C σ} {s : Fin n} {pre mid : List (Action n C σ)}
    (hok : Lib.Along (World.step gob) DeliversInOrder World.init (pre ++ mid))
    (hstart : StartsUp s pre) (hpre : Lib.run (World.step gob) World.init pre = some v)
    (hmid : Lib.run (World.step gob) v mid = some w) (hcrash : .crash s ∉ mid) :
    ∃ ds, deliveries s w.trace = deliveries s v.trace ++ ds ∧
      InSequence (v.nodes s).rf.lastIncludedIndex ds ∧
      ∀ ds₁ i ds₂ k, ds = ds₁ ++ .snapshot i :: ds₂ → .command k ∈ ds₂ → i < k := by
  obtain ⟨hokpre, hokmid⟩ := (Lib.along_append hpre).mp hok
  have hinv : ApplierInv gob v :=
    Lib.run_invariant (fun _ _ _ h hok hstep ↦ h.delivers hok (World.step_inv hstep))
      ApplierInv.init hokpre hpre
  have hok' : Lib.Along (World.step gob) (fun u a ↦ DeliversInOrder u a ∧ a ≠ .crash s) v mid :=
    Lib.along_and_forall_mem hokmid fun a ha heq ↦ hcrash (heq ▸ ha)
  -- carried through the run: what has been delivered since `v`, and where the batch goes on
  let I : World n C σ → Prop := fun u ↦ ApplierInv gob u ∧
    ∃ ds, deliveries s u.trace = deliveries s v.trace ++ ds ∧
      InSequence (v.nodes s).rf.lastIncludedIndex ds ∧
      (u.nodes s).Ready (position (v.nodes s).rf.lastIncludedIndex ds)
  have hI : I w := by
    refine Lib.run_invariant (I := I) ?_ ?_ hok' hmid
    · rintro u a u' ⟨hu, ds, hds, hseq, hready⟩ ⟨hua, hne⟩ hstep
      have hstep' := World.step_inv hstep
      obtain ⟨new, hnew, hseq', hready'⟩ := ready_step hu hua hne hstep' hseq hready
      exact ⟨hu.delivers hua hstep', ds ++ new, by rw [hnew, hds, List.append_assoc], hseq', hready'⟩
    · exact ⟨hinv, [], (List.append_nil _).symm, trivial, ready_of_startsUp hstart hokpre hpre⟩
  obtain ⟨_, ds, hds, hseq, _⟩ := hI
  refine ⟨ds, hds, hseq, fun ds₁ i ds₂ k hsplit hk ↦ ?_⟩
  subst hsplit
  exact hseq.snapshot_lt hk

/-- Server 0 leads term 1 and commits one command with server 1; server 2 learns of it, and its
`updateApplied` has collected the command but not sent it yet.  The leader commits a second command,
applies both and compacts them.  Server 2, which lacks the second command, is sent the snapshot; its
service receives and accepts it before the first command is sent. -/
def overtakeRun : List (Action 3 Nat (RaftImage 3 Nat)) :=
  let vote : Envelope 3 (RequestVoteArgs 3) := ⟨0, 1, ⟨1, 0, 0, 0⟩⟩
  let x : Log Nat := ⟨some 7, 1⟩
  let y : Log Nat := ⟨some 8, 1⟩
  let append (rpc : Nat) (dst : Fin 3) (index last : Int) (entries : List (Log Nat))
      (commit : Int) : Envelope 3 (AppendEntriesArgs 3 Nat) :=
    ⟨rpc, dst, ⟨1, 0, index, last, entries, commit⟩⟩
  let ok : AppendEntriesReply := { term := 1, success := true }
  let install : Envelope 3 (InstallSnapshotArgs 3 (RaftImage 3 Nat)) :=
    ⟨4, 2, ⟨1, 0, 2, 1, [bootImage]⟩⟩
  [ .electTimeout 0, .electRound 0 0, .electRound 0 0, .requestVote vote,
    .voteReply 0 0 vote { term := 1, voteGranted := true }, .start 0 (some 7),
    .onRound 0 1, .appendEntries (append 1 1 0 0 [x] 0), .appendReply 0 (append 1 1 0 0 [x] 0) ok,
    .onRound 0 2, .appendEntries (append 2 2 0 0 [x] 1), .appendReply 0 (append 2 2 0 0 [x] 1) ok,
    .wakeApplier 2, .updateApplied 2, .start 0 (some 8),
    .onRound 0 1, .appendEntries (append 3 1 1 1 [y] 1), .appendReply 0 (append 3 1 1 1 [y] 1) ok,
    .wakeApplier 0, .updateApplied 0, .sendCommand 0, .serviceDone 0, .sendCommand 0,
    .serviceDone 0, .snapshot 0 2 [bootImage],
    .onRound 0 2, .installSnapshot install, .sendSnapshot 2 0, .condInstallSnapshot 2,
    .sendCommand 2 ]

/-- Server 2 is handed the command of index 1 after the snapshot of index 2. -/
theorem command_after_newer_snapshot :
    ∃ w, Lib.run (World.step (Gob.plain (RaftImage 3 Nat))) World.init overtakeRun = some w ∧
      deliveries 2 w.trace = [.snapshot 2, .command 1] ∧
      ¬ InSequence 0 [.snapshot 2, .command 1] := by
  have hcheck : (Lib.run (World.step (Gob.plain (RaftImage 3 Nat))) World.init overtakeRun).any
      (fun w ↦ decide (deliveries 2 w.trace = [.snapshot 2, .command 1])) = true := by
    decide +kernel
  obtain ⟨w, hrun, hw⟩ := Lib.exists_run_of_any hcheck
  refine ⟨w, hrun, of_decide_eq_true hw, ?_⟩
  rintro ⟨_, hnext, _⟩
  exact absurd hnext (by decide)

/-- The run of `overtakeRun`, except that server 2 sends the first command as soon as it has
collected it; the leader then learns that server 2 has the snapshot, commits two more commands with
server 1, and server 2 is sent both and delivers them. -/
def catchUpRun : List (Action 3 Nat (RaftImage 3 Nat)) :=
  let zs : List (Log Nat) := [⟨some 9, 1⟩, ⟨some 10, 1⟩]
  let append (rpc : Nat) (dst : Fin 3) (commit : Int) : Envelope 3 (AppendEntriesArgs 3 Nat) :=
    ⟨rpc, dst, ⟨1, 0, 2, 1, zs, commit⟩⟩
  let install : Envelope 3 (InstallSnapshotArgs 3 (RaftImage 3 Nat)) :=
    ⟨4, 2, ⟨1, 0, 2, 1, [bootImage]⟩⟩
  overtakeRun.take 14 ++ [.sendCommand 2, .serviceDone 2] ++ (overtakeRun.drop 14).take 15 ++
  [ .serviceDone 2, .snapshotReply 0 install { term := 1 }, .start 0 (some 9), .start 0 (some 10),
    .onRound 0 1, .appendEntries (append 5 1 2),
    .appendReply 0 (append 5 1 2) { term := 1, success := true },
    .onRound 0 2, .appendEntries (append 6 2 4), .wakeApplier 2, .updateApplied 2,
    .sendCommand 2, .serviceDone 2, .sendCommand 2 ]

/-- In `catchUpRun` the conditions hold; server 2 is handed a command, the snapshot that covers the
next one, and the two commands after it. -/
theorem delivered_in_order_catchUpRun :
    ∃ w, Lib.run (World.step (Gob.plain (RaftImage 3 Nat))) World.init catchUpRun = some w ∧
      deliveries 2 w.trace = [.command 1, .snapshot 2, .command 3, .command 4] ∧
      InSequence 0 [.command 1, .snapshot 2, .command 3, .command 4] := by
  have hcheck : (Lib.run (World.step (Gob.plain (RaftImage 3 Nat))) World.init catchUpRun).any
      (fun w ↦ decide (deliveries 2 w.trace =
        [.command 1, .snapshot 2, .command 3, .command 4])) = true := by
    decide +kernel
  have hok : Lib.Along (World.step (Gob.plain (RaftImage 3 Nat))) DeliversInOrder World.init
      ([] ++ catchUpRun) := by
    decide +kernel
  have hcrash : .crash 2 ∉ catchUpRun := by
    simp [catchUpRun, overtakeRun]
  obtain ⟨w, hrun, hw⟩ := Lib.exists_run_of_any hcheck
  obtain ⟨ds, hds, hseq, _⟩ := delivered_in_order hok (Or.inl rfl) rfl hrun hcrash
  have hall := of_decide_eq_true hw
  rw [hds] at hall
  change ds = [.command 1, .snapshot 2, .command 3, .command 4] at hall
  rw [hall] at hseq
  exact ⟨w, hrun, of_decide_eq_true hw, hseq⟩

end Lab6824
