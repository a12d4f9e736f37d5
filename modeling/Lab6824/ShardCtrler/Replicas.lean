import Lab6824.ShardCtrler.Server

/-!
# Replicas — every server makes the same configurations

Two servers that apply the same log visit their maps in different orders.  With positive gids this
makes no difference: a least gid, or a gid with the most or the fewest shards and the least number
among those, is the same in every order.
-/

namespace Lab6824.ShardCtrler

open Lib (RangeOrder index)

/-! ## The order of the loops -/

theorem minKey_injective (m : ShardsMap) : Function.Injective (minKey m) := by
  intro a b h
  exact (Prod.ext_iff.mp (toLex.injective h)).2

theorem maxKey_injective (m : ShardsMap) : Function.Injective (maxKey m) := by
  intro a b h
  exact (Prod.ext_iff.mp (toLex.injective h)).2

theorem getGidWithMinShards_order (order order' : RangeOrder Int) (m : ShardsMap) :
    getGidWithMinShards order m = getGidWithMinShards order' m := by
  rw [getGidWithMinShards_eq, getGidWithMinShards_eq, Lib.argmin_eq_of_perm (minKey_injective m)
    ((order.perm order' m.keys).filter _)]

theorem getGidWithMaxShards_order (order order' : RangeOrder Int) (m : ShardsMap) :
    getGidWithMaxShards order m = getGidWithMaxShards order' m := by
  rw [getGidWithMaxShards_eq, getGidWithMaxShards_eq, Lib.argmin_eq_of_perm (maxKey_injective m)
    ((order.perm order' m.keys).filter _)]

/-- `-1` is what `getNext` starts with, so a gid `-1` would be replaced by the one visited next. -/
theorem getNext_order (order order' : RangeOrder Int) {m : ShardsMap} (h : (-1 : Int) ∉ m) :
    getNext order m = getNext order' m := by
  apply RangeOrder.foldl_eq
  intro a ha b hb ans
  have ha' : a ≠ -1 := by
    rintro rfl
    exact h (Finmap.mem_keys.mp ha)
  have hb' : b ≠ -1 := by
    rintro rfl
    exact h (Finmap.mem_keys.mp hb)
  split_ifs <;> omega

theorem ensure_comm (m : ShardsMap) (a b : Int) : ensure (ensure m a) b = ensure (ensure m b) a := by
  by_cases hab : a = b
  · rw [hab]
  · by_cases ha : a ∈ m
    · by_cases hb : b ∈ m
      · simp [ensure, ha, hb]
      · simp [ensure, ha, hb, Finmap.mem_insert]
    · by_cases hb : b ∈ m
      · simp [ensure, ha, hb, Finmap.mem_insert]
      · have hba : b ≠ a := Ne.symm hab
        simp [ensure, ha, hb, Finmap.mem_insert, hab, hba, Finmap.insert_insert_of_ne m hab]

theorem balanceLoop_order (ords ords' : Orders) (fuel round : Nat) (m : ShardsMap) (shards : Shards) :
    balanceLoop ords fuel round m shards = balanceLoop ords' fuel round m shards := by
  induction fuel generalizing round m shards with
  | zero => rfl
  | succ fuel ih =>
      rw [balanceLoop, balanceLoop, getGidWithMinShards_order (ords (2 * round)) (ords' (2 * round)),
        getGidWithMaxShards_order (ords (2 * round + 1)) (ords' (2 * round + 1))]
      dsimp only
      split
      · rfl
      · split
        · rfl
        · exact ih _ _ _

theorem balance_order (ords ords' : Orders) {shards : Shards} {newGroups : Groups}
    (hshards : ∀ shard, 0 ≤ shards shard) (hgroups : ∀ gid ∈ newGroups, 0 < gid) :
    balance ords shards newGroups = balance ords' shards newGroups := by
  have hensure := (ords 0).foldl_eq (ords' 0) (s := newGroups.keys)
    (fun a _ b _ m ↦ ensure_comm m a b) (getShardsMap shards)
  have hnext : (-1 : Int) ∉ ((ords' 0).visit newGroups.keys).foldl ensure (getShardsMap shards) := by
    rw [mem_ensure_foldl, (ords' 0).mem_visit, Finmap.mem_keys, getShardsMap, mem_addShard_foldl]
    rintro (hnew | ⟨shard, _, howner⟩)
    · have hpos := hgroups _ hnew
      omega
    · have hpos := hshards shard
      omega
  unfold balance
  rw [hensure]
  dsimp only
  rw [getNext_order (ords 1) (ords' 1) hnext, balanceLoop_order]

/-! ## The order of the loops of one operation -/

/-- The gids that an operation names. -/
def Op.gids : Op → Finset Int
  | .join servers => servers.keys
  | .leave gids => gids.toFinset
  | .move _ gid => {gid}
  | .query _ => ∅

/-- Owners and groups of a configuration that was made with positive gids. -/
structure PositiveGids (config : Config) : Prop where
  owners : ∀ shard, 0 ≤ config.shards shard
  groups : ∀ gid ∈ config.groups, 0 < gid

namespace PositiveGids

variable {config config' : Config}

theorem initial : PositiveGids {} where
  owners := fun _ ↦ le_refl 0
  groups := fun _ hgid ↦ absurd hgid Finmap.notMem_empty

/-- `balance` gives the shards to old owners or to groups that it is shown. -/
theorem rebalanced {shards : Shards} {newGroups : Groups} {shards' : Shards}
    (hshards : ∀ shard, 0 ≤ shards shard) (hgroups : ∀ gid ∈ newGroups, 0 < gid)
    (hbal : Rebalanced shards newGroups shards') (shard : Fin NShards) : 0 ≤ shards' shard := by
  by_cases hseen : seen shards newGroups = ∅
  · rw [hbal.unseen hseen]
    exact hshards shard
  · have howner := hbal.owned (Finset.nonempty_iff_ne_empty.mpr hseen) shard
    obtain ⟨_, ⟨old, hold⟩ | hnew⟩ := mem_seen.mp howner
    · rw [← hold]
      exact hshards old
    · exact (hgroups _ hnew).le

theorem orphaned (h : PositiveGids config) (gids : List Int) (shard : Fin NShards) :
    0 ≤ ShardCtrler.orphaned config gids shard := by
  unfold ShardCtrler.orphaned
  split_ifs
  · exact le_refl 0
  · exact h.owners shard

end PositiveGids

theorem execute_positiveGids {sc sc' : ShardCtrler} {c : Command} (h : PositiveGids sc.getLastConfig)
    (hpos : ∀ gid ∈ c.op.gids, 0 < gid) (hstep : sc.execute c = some sc') :
    PositiveGids sc'.getLastConfig := by
  unfold execute at hstep
  cases hop : c.op with
  | join servers =>
      rw [hop] at hpos hstep
      simp only [Op.gids, Finmap.mem_keys] at hpos
      obtain ⟨config, hdeal, hgroups, hbal, _⟩ := dealJoin_spec sc c.ords servers
      obtain rfl := Option.some.inj (hdeal.symm.trans hstep)
      rw [getLastConfig_append]
      refine ⟨PositiveGids.rebalanced h.owners hpos hbal, fun gid hgid ↦ ?_⟩
      rcases (hgroups gid).mp hgid with hnew | hold
      · exact hpos gid hnew
      · exact h.groups gid hold
  | leave gids =>
      rw [hop] at hstep
      obtain ⟨config, hdeal, hgroups, hbal, _⟩ := dealLeave_spec sc c.ords gids
      obtain rfl := Option.some.inj (hdeal.symm.trans hstep)
      rw [getLastConfig_append]
      have hkept : ∀ gid ∈ config.groups, 0 < gid := fun gid hgid ↦
        h.groups gid ((hgroups gid).mp hgid).1
      exact ⟨PositiveGids.rebalanced (h.orphaned gids) hkept hbal, hkept⟩
  | move shard gid =>
      rw [hop] at hpos hstep
      obtain ⟨h0, hlt⟩ := (exists_dealMove_iff sc c.ords shard gid).mp ⟨_, hstep⟩
      obtain ⟨config, k, hdeal, hgroups, hshards⟩ := dealMove_spec sc c.ords gid h0 hlt
      obtain rfl := Option.some.inj (hdeal.symm.trans hstep)
      rw [getLastConfig_append]
      refine ⟨fun shard ↦ ?_, by rw [hgroups]; exact h.groups⟩
      rw [hshards]
      by_cases hk : shard = k
      · rw [hk, Function.update_self]
        exact (hpos gid (Finset.mem_singleton_self gid)).le
      · rw [Function.update_of_ne hk]
        exact h.owners shard
  | query num =>
      rw [hop] at hstep
      obtain ⟨_, _, rfl⟩ := Option.map_eq_some_iff.mp hstep
      exact h

theorem dealJoin_order (ords ords' : Orders) {sc : ShardCtrler} {servers : Groups}
    (h : PositiveGids sc.getLastConfig) (hpos : ∀ gid ∈ servers, 0 < gid) :
    sc.dealJoin ords servers = sc.dealJoin ords' servers := by
  unfold dealJoin copyLastConfig
  rw [copy_eq, copy_eq]
  dsimp only
  rw [balance_order (fun k ↦ ords (k + 2)) (fun k ↦ ords' (k + 2)) h.owners hpos,
    Lib.foldl_insert_order (ords 1) (ords' 1) servers]

theorem dealLeave_order (ords ords' : Orders) {sc : ShardCtrler} {gids : List Int}
    (h : PositiveGids sc.getLastConfig) : sc.dealLeave ords gids = sc.dealLeave ords' gids := by
  have hkept : ∀ gid ∈ gids.foldl (fun m gid ↦ m.erase gid) sc.getLastConfig.groups, 0 < gid :=
    fun gid hgid ↦ h.groups gid ((mem_foldl_erase _ _ _).mp hgid).1
  have hbalance := balance_order (fun k ↦ ords (k + 1)) (fun k ↦ ords' (k + 1)) (h.orphaned gids) hkept
  unfold orphaned at hbalance
  unfold dealLeave copyLastConfig
  rw [copy_eq, copy_eq]
  dsimp only
  rw [hbalance]

/-- The result of an operation does not depend on the orders. -/
theorem deal_order (ords ords' : Orders) {s : Server} {op : Op}
    (h : PositiveGids s.sc.getLastConfig) (hpos : ∀ gid ∈ op.gids, 0 < gid) :
    s.deal ords op = s.deal ords' op := by
  cases op with
  | join servers =>
      simp only [Op.gids, Finmap.mem_keys] at hpos
      rw [Server.deal, Server.deal, dealJoin_order ords ords' h hpos]
  | leave gids => rw [Server.deal, Server.deal, dealLeave_order ords ords' h]
  | move shard gid =>
      rw [Server.deal, Server.deal]
      unfold dealMove copyLastConfig
      rw [copy_eq, copy_eq]
  | query num => rw [Server.deal, Server.deal, dealQuery_eq, dealQuery_eq]

/-! ## Replicas agree -/

theorem Replica.step_order {r : Replica} {a a' : Applied} (hsame : a.request = a'.request)
    (h : PositiveGids r.server.sc.getLastConfig)
    (hpos : ∀ gid ∈ a.request.op.gids, 0 < gid) : r.step a = r.step a' := by
  unfold Replica.step Server.fetchApply
  rw [deal_order a.ords a'.ords h hpos, hsame]

theorem Replica.step_positiveGids {r r' : Replica} {a : Applied}
    (h : PositiveGids r.server.sc.getLastConfig) (hpos : ∀ gid ∈ a.request.op.gids, 0 < gid)
    (hstep : r.step a = some r') : PositiveGids r'.server.sc.getLastConfig := by
  obtain ⟨⟨s', answer⟩, happly, rfl⟩ := Option.map_eq_some_iff.mp hstep
  rcases Server.fetchApply_cases happly with ⟨_, hsc, _⟩ | ⟨_, hdeal⟩
  · dsimp only
    rw [hsc]
    exact h
  · have hexec : r.server.sc.execute ⟨a.request.op, a.ords⟩ = some s'.sc := by
      rw [← Server.deal_fst, hdeal]
      rfl
    exact execute_positiveGids h hpos hexec

/-- Two runs over the same requests are the same run. -/
theorem run_order {r : Replica} {log log' : List Applied}
    (hsame : log.map Applied.request = log'.map Applied.request)
    (hpos : ∀ a ∈ log, ∀ gid ∈ a.request.op.gids, 0 < gid)
    (h : PositiveGids r.server.sc.getLastConfig) :
    Lib.run Replica.step r log = Lib.run Replica.step r log' := by
  induction log generalizing r log' with
  | nil =>
      rw [List.map_nil, eq_comm, List.map_eq_nil_iff] at hsame
      rw [hsame]
  | cons a log ih =>
      cases log' with
      | nil => cases hsame
      | cons a' log' =>
          rw [List.map_cons, List.map_cons, List.cons.injEq] at hsame
          have ha := hpos a List.mem_cons_self
          rw [Lib.run, Lib.run, ← Replica.step_order hsame.1 h ha]
          cases hstep : r.step a with
          | none => rfl
          | some r' =>
              apply ih hsame.2 (fun b hb ↦ hpos b (List.mem_cons_of_mem a hb))
              exact Replica.step_positiveGids h ha hstep

/-- Servers that apply the same log of requests with positive gids have the same configurations and
compute the same answers, or stop at the same request, whatever the orders in which they visit their
maps. -/
theorem replicas_agree (log log' : List Applied)
    (hsame : log.map Applied.request = log'.map Applied.request)
    (hpos : ∀ a ∈ log, ∀ gid ∈ a.request.op.gids, 0 < gid) :
    Lib.run Replica.step {} log = Lib.run Replica.step {} log' :=
  run_order hsame hpos PositiveGids.initial

def threeGroups : Groups :=
  ([3, 1, 2] : List Int).foldl (fun m gid ↦ m.insert gid []) ∅

/-- Three groups join at once, one leaves, and a shard is moved to a gid that never joined. -/
def agreeOps : List Op :=
  [.join threeGroups, .leave [2], .move 0 7, .query (-1), joinOne 5, .query 1]

/-- The operations as calls of one client. -/
def callsOf (order : RangeOrder Int) (ops : List Op) : List Applied :=
  ops.mapIdx fun k op ↦ ⟨⟨op, k + 1, 1⟩, fun _ ↦ order⟩

theorem replicas_agree_up_down :
    ∃ r, Lib.run Replica.step {} (callsOf .increasing agreeOps) = some r ∧
      Lib.run Replica.step {} (callsOf .decreasing agreeOps) = some r ∧
      r.server.sc.configs.length = 5 ∧ r.answers.length = 6 := by
  have hcheck : (Lib.run Replica.step {} (callsOf .increasing agreeOps)).any (fun r ↦
      decide (r.server.sc.configs.length = 5 ∧ r.answers.length = 6)) = true := by
    decide +kernel
  obtain ⟨r, hrun, htest⟩ := Lib.exists_run_of_any hcheck
  have hsame := replicas_agree (callsOf .increasing agreeOps) (callsOf .decreasing agreeOps) rfl
    (by decide +kernel)
  exact ⟨r, hrun, hsame ▸ hrun, of_decide_eq_true htest⟩

end Lab6824.ShardCtrler
