import Mathlib.Order.Bounds.Basic
import Lab6824.ShardCtrler.Owners

/-!
# Transfers — which shards change their owner

On a `Join` shards go from the old groups to the new ones, none goes twice, and no level assignment
can be had with fewer moves.  On a `Leave` the shards of the leaving groups are all given to one of the
remaining groups, behind its own, and it is the shards of its own that it then gives away first.
-/

namespace Lab6824.ShardCtrler

open Lib (RangeOrder index load Level Levelling Low Joined movedCount transferAll)

/-! ## `Join` -/

/-- A configuration whose shards belong to its groups, level, and new gids. -/
structure Joining (config : Config) (servers : Groups) : Prop where
  some_server : servers ≠ ∅
  owned : ∀ shard, config.shards shard ∈ config.groups
  balanced : Balanced config
  positive : ∀ gid ∈ servers, 0 < gid
  new : ∀ gid ∈ servers, gid ∉ config.groups

namespace Joining

variable {config : Config} {servers : Groups}

theorem disjoint (h : Joining config servers) :
    Disjoint config.groups.keys servers.keys := by
  rw [Finset.disjoint_left]
  intro gid hold hnew
  exact h.new gid (Finmap.mem_keys.mp hnew) (Finmap.mem_keys.mp hold)

theorem joined (h : Joining config servers) :
    Joined config.groups.keys servers.keys config.shards := by
  have hidle : ∀ gid ∈ servers.keys, load config.shards gid = 0 := by
    intro gid hgid
    refine Lib.load_eq_zero fun shard howner ↦ h.new gid (Finmap.mem_keys.mp hgid) ?_
    rw [← howner]
    exact h.owned shard
  refine ⟨h.balanced, fun a ha b _ ↦ ?_, fun a ha b _ ↦ ?_⟩
  · rw [hidle a ha]
    omega
  · rw [hidle a ha]
    omega

theorem seen_subset (h : Joining config servers) :
    seen config.shards servers ⊆ config.groups.keys ∪ servers.keys := by
  intro gid hgid
  rw [Finset.mem_union, Finmap.mem_keys, Finmap.mem_keys]
  obtain ⟨_, ⟨shard, rfl⟩ | hnew⟩ := mem_seen.mp hgid
  · exact Or.inl (h.owned shard)
  · exact Or.inr hnew

theorem servers_subset (h : Joining config servers) :
    servers.keys ⊆ seen config.shards servers := by
  intro gid hgid
  have hmem := Finmap.mem_keys.mp hgid
  exact mem_seen.mpr ⟨(h.positive gid hmem).ne', Or.inr hmem⟩

/-- An old owner and a new gid are two keys of the map of `balance`. -/
theorem card_ne_one (h : Joining config servers) (ords : Orders) :
    (startMap ords config.shards servers).keys.card ≠ 1 := by
  intro hone
  obtain ⟨gid, hgid⟩ : ∃ gid, gid ∈ servers := by
    by_contra hno
    push Not at hno
    exact h.some_server (groups_eq_empty hno)
  have hmem : gid ∈ others (startMap ords config.shards servers) := by
    rw [others_startMap]
    exact h.servers_subset (Finmap.mem_keys.mpr hgid)
  have howner := owner_eq_of_card_eq_one hone (mem_others.mp hmem).2 ⟨0, by decide⟩
  exact h.new gid hgid (howner ▸ h.owned _)

/-- A group that `balance` does not see has no shards. -/
theorem level (h : Joining config servers) {shards : Shards}
    (hjoined : Joined config.groups.keys servers.keys shards)
    (hlevel : Level (seen config.shards servers) shards)
    (howned : ∀ shard, shards shard ∈ seen config.shards servers) :
    Level (config.groups.keys ∪ servers.keys) shards := by
  intro a ha b hb
  by_cases haseen : a ∈ seen config.shards servers
  · rcases Finset.mem_union.mp ha with haold | hanew
    · rcases Finset.mem_union.mp hb with hbold | hbnew
      · exact hjoined.old a haold b hbold
      · exact hlevel a haseen b (h.servers_subset hbnew)
    · rcases Finset.mem_union.mp hb with hbold | hbnew
      · exact (hjoined.le a hanew b hbold).trans (Nat.le_succ _)
      · exact hjoined.new a hanew b hbnew
  · have hidle : load shards a = 0 := Lib.load_eq_zero fun shard howner ↦
      haseen (howner ▸ howned shard)
    omega

end Joining

theorem joining_one {config : Config} {gid : Int}
    (howned : ∀ shard, config.shards shard ∈ config.groups) (hbalanced : Balanced config)
    (hpos : 0 < gid) (hnew : gid ∉ config.groups) : Joining config (Finmap.singleton gid []) where
  some_server := groups_ne_empty ((Finmap.mem_singleton gid gid []).mpr rfl)
  owned := howned
  balanced := hbalanced
  positive := by
    intro gid' hgid'
    rw [(Finmap.mem_singleton gid' gid []).mp hgid']
    exact hpos
  new := by
    intro gid' hgid'
    rw [(Finmap.mem_singleton gid' gid []).mp hgid']
    exact hnew

/-- Gid `0` has no shards to be given away before the loop. -/
theorem settle_eq_self {shards : Shards} (h : ∀ shard, shards shard ≠ 0) (next : Int) :
    settle next shards = shards := by
  ext shard
  rw [settle, if_neg (h shard)]

/-- How a `Join` moves shards: one transfer each at most, to a new gid, and as few as there can be. -/
structure JoinMoves (ords : Orders) (config : Config) (servers : Groups) (shards : Shards) :
    Prop where
  steps : shards = transferAll config.shards (transfers ords config.shards servers)
  once : ((transfers ords config.shards servers).map Lib.Transfer.item).Nodup
  to_new : ∀ t ∈ transfers ords config.shards servers,
    t.source = config.shards t.item ∧ t.target = shards t.item ∧ t.target ∈ servers
  kept : ∀ shard, shards shard = config.shards shard ∨ shards shard ∈ servers
  least : IsLeast
    { n | ∃ g : Shards, (∀ shard, g shard ∈ config.groups ∨ g shard ∈ servers) ∧
      Level (config.groups.keys ∪ servers.keys) g ∧ n = movedCount config.shards g }
    (movedCount config.shards shards)

theorem Joining.moves {config : Config} {servers : Groups} (h : Joining config servers)
    (h0 : ∀ shard, config.shards shard ≠ 0) {ords : Orders} {shards : Shards}
    (hbalance : balance ords config.shards servers = some shards) :
    JoinMoves ords config servers shards := by
  have hrun := (balanceRun_of_card_ne_one (h.card_ne_one ords)).1
  obtain ⟨_, howned, hresult, hlevelling, hlevel⟩ := hrun
  -- no shard belongs to gid `0`, so the loop starts from the old configuration
  rw [settle_eq_self h0] at howned hresult hlevelling hlevel
  have hsteps := Option.some.inj (hbalance.symm.trans hresult)
  rw [← hsteps] at hlevel
  obtain ⟨htargets, hjoined⟩ := hlevelling.joined h.joined howned h.servers_subset h.seen_subset
  rw [← hsteps] at hjoined
  have hto : ∀ t ∈ transfers ords config.shards servers,
      t.source = config.shards t.item ∧ t.target = shards t.item ∧ t.target ∈ servers := by
    intro t ht
    obtain ⟨hfirst, hlast, _⟩ := hlevelling.moved ht
    rw [← hsteps] at hlast
    exact ⟨hfirst.symm, hlast.symm, Finmap.mem_keys.mp (htargets t ht)⟩
  have hkept : ∀ shard, shards shard = config.shards shard ∨ shards shard ∈ servers := by
    intro shard
    by_cases hmoved : ∃ t ∈ transfers ords config.shards servers, t.item = shard
    · obtain ⟨t, ht, rfl⟩ := hmoved
      obtain ⟨_, hlast, hnew⟩ := hto t ht
      exact Or.inr (hlast ▸ hnew)
    · push Not at hmoved
      rw [hsteps]
      exact Or.inl (Lib.transferAll_of_notMem config.shards hmoved)
  refine ⟨hsteps, hlevelling.nodup, hto, hkept, ⟨shards, fun shard ↦ ?_, ?_, rfl⟩, ?_⟩
  · rcases hkept shard with hsame | hnew
    · rw [hsame]
      exact Or.inl (h.owned shard)
    · exact Or.inr hnew
  · refine h.level hjoined hlevel fun shard ↦ ?_
    rw [hsteps]
    exact hlevelling.owned howned shard
  · rintro n ⟨g, hg, hglevel, rfl⟩
    refine Lib.movedCount_le h.disjoint (fun shard ↦ Finmap.mem_keys.mpr (h.owned shard))
      (fun shard ↦ ?_) hjoined (fun shard ↦ ?_) hglevel
    · exact (hkept shard).imp_right Finmap.mem_keys.mpr
    · rw [Finset.mem_union, Finmap.mem_keys, Finmap.mem_keys]
      exact hg shard

/-- On a configuration with level groups, none of whose shards belongs to gid `0`, `Join` lets every
shard stay or moves it once, to a new group, and no level assignment moves fewer shards. -/
theorem join_moves_least (sc : ShardCtrler) (ords : Orders) (servers : Groups)
    (hjoin : Joining sc.getLastConfig servers)
    (hzero : ∀ shard, sc.getLastConfig.shards shard ≠ 0) :
    ∃ config, sc.dealJoin ords servers = some (sc.append config) ∧
      (∀ gid, gid ∈ config.groups ↔ gid ∈ servers ∨ gid ∈ sc.getLastConfig.groups) ∧
      JoinMoves (fun k ↦ ords (k + 2)) sc.getLastConfig servers config.shards := by
  obtain ⟨config, hdeal, hgroups, _, hbalance⟩ := dealJoin_spec sc ords servers
  exact ⟨config, hdeal, hgroups, hjoin.moves hzero hbalance⟩

/-- Gid `0` has joined as a group.  When group `1` joins it is given all ten shards, while five would
do. -/
theorem join_takes_all_from_zero :
    ∃ sc sc', Lib.run execute start [ascending (joinOne 0)] = some sc ∧
      Joining sc.getLastConfig (Finmap.singleton 1 []) ∧
      sc.execute (ascending (joinOne 1)) = some sc' ∧
      movedCount sc.getLastConfig.shards sc'.getLastConfig.shards = 10 ∧
      ∃ g : Shards, (∀ shard, g shard ∈ sc'.getLastConfig.groups) ∧
        Level sc'.getLastConfig.groups.keys g ∧ movedCount sc.getLastConfig.shards g = 5 := by
  let half : Shards := fun shard ↦ if shard.val < 5 then 1 else 0
  have hcheck : (Lib.run execute start [ascending (joinOne 0)]).any
      (fun sc ↦ decide ((∀ shard, sc.getLastConfig.shards shard ∈ sc.getLastConfig.groups) ∧
        Balanced sc.getLastConfig ∧ 1 ∉ sc.getLastConfig.groups ∧
        movedCount sc.getLastConfig.shards half = 5 ∧
        (sc.execute (ascending (joinOne 1))).any fun sc' ↦ decide (
          movedCount sc.getLastConfig.shards sc'.getLastConfig.shards = 10 ∧
          (∀ shard, half shard ∈ sc'.getLastConfig.groups) ∧
          Level sc'.getLastConfig.groups.keys half))) = true := by
    decide +kernel
  obtain ⟨sc, hrun, htest⟩ := Lib.exists_run_of_any hcheck
  obtain ⟨howned, hbalanced, hnew, hhalf, hjoin⟩ := of_decide_eq_true htest
  obtain ⟨sc', hstep, htest'⟩ := (Option.any_eq_true _ _).mp hjoin
  obtain ⟨hten, hin, hlevel⟩ := of_decide_eq_true htest'
  exact ⟨sc, sc', hrun, joining_one howned hbalanced (by decide) hnew, hstep, hten, half, hin, hlevel,
    hhalf⟩

/-- Group `3` joins groups `1` and `2`, which own five shards each, and is given three. -/
theorem join_moves_three :
    ∃ sc config, Lib.run execute start ([joinOne 1, joinOne 2].map ascending) = some sc ∧
      Joining sc.getLastConfig (Finmap.singleton 3 []) ∧
      sc.execute (ascending (joinOne 3)) = some (sc.append config) ∧
      JoinMoves (fun _ ↦ RangeOrder.increasing) sc.getLastConfig (Finmap.singleton 3 [])
        config.shards := by
  have hcheck : (Lib.run execute start ([joinOne 1, joinOne 2].map ascending)).any
      (fun sc ↦ decide ((∀ shard, sc.getLastConfig.shards shard ∈ sc.getLastConfig.groups) ∧
        Balanced sc.getLastConfig ∧ 3 ∉ sc.getLastConfig.groups ∧
        ∀ shard, sc.getLastConfig.shards shard ≠ 0)) = true := by
    decide +kernel
  obtain ⟨sc, hrun, htest⟩ := Lib.exists_run_of_any hcheck
  obtain ⟨howned, hbalanced, hnew, hzero⟩ := of_decide_eq_true htest
  have hjoin := joining_one howned hbalanced (by decide) hnew
  obtain ⟨config, hdeal, _, hmoves⟩ := join_moves_least sc (fun _ ↦ RangeOrder.increasing)
    (Finmap.singleton 3 []) hjoin hzero
  exact ⟨sc, config, hrun, hjoin, hdeal, hmoves⟩

/-! ## `Leave` -/

/-- A configuration whose shards belong to its groups, level, of which a group stays. -/
structure Leaving (config : Config) (gids : List Int) : Prop where
  owned : ∀ shard, config.shards shard ∈ config.groups
  balanced : Balanced config
  some_left : ∃ gid ∈ config.groups, gid ∉ gids

/-- The group that `balance` gives the shards of the leaving groups to, before its loop. -/
def successor (ords : Orders) (config : Config) (gids : List Int) : Int :=
  heir ords (orphaned config gids) (remaining config gids)

/-- The owners before the loop. -/
def handedOver (ords : Orders) (config : Config) (gids : List Int) : Shards :=
  settle (successor ords config gids) (orphaned config gids)

/-- What it takes for the shards of the remaining groups to stay.  Either no group remains besides
gid `0`; or gid `0` does not remain with shards, and the successor has no shard of its own to give
away, or need not give any since the groups are level at once. -/
def SparesOwners (ords : Orders) (config : Config) (gids : List Int) : Prop :=
  (∀ gid ∈ remaining config gids, gid = 0) ∨
    (∀ shard, config.shards shard = 0 → 0 ∈ gids) ∧
      (load config.shards (successor ords config gids) = 0 ∨
        Level ((remaining config gids).keys.erase 0) (handedOver ords config gids))

/-- Only shards of leaving groups have got another owner. -/
def OnlyOrphansMove (config : Config) (gids : List Int) (shards : Shards) : Prop :=
  ∀ shard, shards shard ≠ config.shards shard → config.shards shard ∈ gids

namespace Leaving

variable {config : Config} {gids : List Int}

theorem seen_eq (h : Leaving config gids) :
    seen (orphaned config gids) (remaining config gids) = (remaining config gids).keys.erase 0 := by
  ext gid
  rw [mem_seen, Finset.mem_erase, Finmap.mem_keys]
  refine and_congr_right fun h0 ↦ ⟨?_, Or.inr⟩
  rintro (⟨shard, howner⟩ | hmem)
  · unfold orphaned at howner
    split at howner
    · exact absurd howner.symm h0
    · rename_i hstays
      rw [← howner]
      exact mem_remaining.mpr ⟨h.owned shard, hstays⟩
  · exact hmem

section Loop

variable {ords : Orders}

theorem handedOver_apply (ords : Orders) (hzero : ∀ shard, config.shards shard = 0 → 0 ∈ gids)
    (shard : Fin NShards) :
    handedOver ords config gids shard =
      if config.shards shard ∈ gids then successor ords config gids else config.shards shard := by
  unfold handedOver settle orphaned
  by_cases hleaves : config.shards shard ∈ gids
  · simp [hleaves]
  · have h0 : config.shards shard ≠ 0 := fun h0 ↦ hleaves (h0.symm ▸ hzero shard h0)
    simp [hleaves, h0]

/-- The successor keeps its own shards, and the others have theirs. -/
theorem load_handedOver (ords : Orders) (hzero : ∀ shard, config.shards shard = 0 → 0 ∈ gids)
    {gid : Int} (hstays : gid ∉ gids) :
    load config.shards gid ≤ load (handedOver ords config gids) gid ∧
      (gid ≠ successor ords config gids →
        load (handedOver ords config gids) gid = load config.shards gid) := by
  constructor
  · apply Finset.card_le_card
    intro shard hshard
    rw [Finset.mem_filter] at hshard ⊢
    refine ⟨hshard.1, ?_⟩
    rw [handedOver_apply ords hzero, hshard.2, if_neg hstays]
  · intro hne
    unfold load
    congr 1
    ext shard
    simp only [Finset.mem_filter, Finset.mem_univ, true_and, handedOver_apply ords hzero]
    split
    · rename_i hleaves
      exact ⟨fun heq ↦ absurd heq.symm hne, fun heq ↦ absurd (heq ▸ hleaves) hstays⟩
    · exact Iff.rfl

theorem stays_of_mem {gid : Int} (hgid : gid ∈ (remaining config gids).keys.erase 0) :
    gid ∈ config.groups.keys ∧ gid ∉ gids := by
  rw [Finset.mem_erase, Finmap.mem_keys, mem_remaining] at hgid
  exact ⟨Finmap.mem_keys.mpr hgid.2.1, hgid.2.2⟩

theorem low_handedOver (h : Leaving config gids)
    (hzero : ∀ shard, config.shards shard = 0 → 0 ∈ gids) {gid : Int}
    (hgid : gid ∈ (remaining config gids).keys.erase 0)
    (hne : gid ≠ successor ords config gids) :
    Low ((remaining config gids).keys.erase 0) (handedOver ords config gids) gid := by
  intro gid' hgid'
  have hlevel := h.balanced gid (stays_of_mem hgid).1 gid' (stays_of_mem hgid').1
  have hload := (load_handedOver ords hzero (stays_of_mem hgid).2).2 hne
  have hless := (load_handedOver ords hzero (stays_of_mem hgid').2).1
  omega

variable (hmany :
  (startMap ords (orphaned config gids) (remaining config gids)).keys.card ≠ 1)

include hmany

/-- If the successor has shards of its own, the first one that it gives away is one of them. -/
theorem head_own {t : Lib.Transfer (Fin NShards) Int} {ts : List (Lib.Transfer (Fin NShards) Int)}
    (htransfers : transfers ords (orphaned config gids) (remaining config gids) = t :: ts)
    (hsource : t.source = successor ords config gids)
    (hown : load config.shards (successor ords config gids) ≠ 0)
    (hstays : successor ords config gids ∉ gids) (h0 : successor ords config gids ≠ 0) :
    config.shards t.item = successor ords config gids := by
  have hhead := head_transfers hmany htransfers
  rw [hsource] at hhead
  change (index (moveZero (successor ords config gids) _ _).1 _).head? = _ at hhead
  rw [index_moveZero h0, index_startMap] at hhead
  -- the list of the successor begins with its own shards, and there is one
  obtain ⟨shard, hshard⟩ := Lib.exists_of_load_ne_zero hown
  have hmem : shard ∈ (List.finRange NShards).filter
      fun shard ↦ decide (orphaned config gids shard = successor ords config gids) := by
    simp [orphaned, hshard, hstays]
  rw [List.head?_append_of_ne_nil _ (List.ne_nil_of_mem hmem)] at hhead
  have howner := of_decide_eq_true (List.mem_filter.mp (List.mem_of_head? hhead)).2
  unfold orphaned at howner
  split at howner
  · exact absurd howner.symm h0
  · exact howner

theorem onlyOrphansMove_iff (h : Leaving config gids)
    (hzero : ∀ shard, config.shards shard = 0 → 0 ∈ gids) :
    OnlyOrphansMove config gids (transferAll (handedOver ords config gids)
        (transfers ords (orphaned config gids) (remaining config gids))) ↔
      load config.shards (successor ords config gids) = 0 ∨
        Level ((remaining config gids).keys.erase 0) (handedOver ords config gids) := by
  obtain ⟨hheir, _, _, hlevelling, hlevel⟩ := (balanceRun_of_card_ne_one hmany).1
  rw [h.seen_eq] at hheir hlevelling hlevel
  obtain ⟨_, hstays⟩ := stays_of_mem hheir
  -- only the successor has more shards than the others allow
  have hsource := hlevelling.source_eq fun gid hgid hne ↦ h.low_handedOver hzero hgid hne
  constructor
  · intro honly
    by_contra hno
    push Not at hno
    obtain ⟨hown, hnot⟩ := hno
    -- there is a transfer, and the first one takes a shard that should have stayed
    cases htransfers : transfers ords (orphaned config gids) (remaining config gids) with
    | nil =>
        rw [htransfers] at hlevel
        exact hnot hlevel
    | cons t ts =>
        have ht : t ∈ transfers ords (orphaned config gids) (remaining config gids) := by
          rw [htransfers]
          exact List.mem_cons_self
        obtain ⟨_, hlast, hne⟩ := hlevelling.moved ht
        have hitem := head_own hmany htransfers (hsource t ht) hown hstays
          (Finset.mem_erase.mp hheir).1
        rw [hsource t ht, ← hitem] at hne
        have hleaves := honly t.item (by
          intro heq
          exact hne (heq.symm.trans hlast))
        rw [hitem] at hleaves
        exact hstays hleaves
  · rintro (hnone | hat_once) shard hmoved
    · -- whatever the successor gives away was given to it
      by_contra hleaves
      have hbefore := (handedOver_apply ords hzero shard).trans (if_neg hleaves)
      by_cases hitem : ∃ t ∈ transfers ords (orphaned config gids) (remaining config gids),
          t.item = shard
      · obtain ⟨t, ht, rfl⟩ := hitem
        have hfirst := (hlevelling.moved ht).1
        rw [hsource t ht] at hfirst
        exact Lib.load_ne_zero (hbefore.symm.trans hfirst) hnone
      · push Not at hitem
        exact hmoved ((Lib.transferAll_of_notMem _ hitem).trans hbefore)
    · -- the loop ends at once
      rw [hlevelling.eq_nil hat_once] at hmoved
      by_contra hleaves
      apply hmoved
      exact (handedOver_apply ords hzero shard).trans (if_neg hleaves)

end Loop

/-- One group that has every shard, and nobody leaves. -/
theorem of_card_eq_one (h : Leaving config gids) {ords : Orders}
    (hone : (startMap ords (orphaned config gids) (remaining config gids)).keys.card = 1)
    {gid : Int} (hgid : gid ∈ remaining config gids) (h0 : gid ≠ 0) :
    SparesOwners ords config gids := by
  have hall : ∀ gid ∈ (remaining config gids).keys.erase 0, ∀ shard,
      orphaned config gids shard = gid := by
    intro gid hgid
    rw [← h.seen_eq, ← others_startMap ords, mem_others] at hgid
    exact owner_eq_of_card_eq_one hone hgid.2
  have howner : ∀ shard, config.shards shard = gid := by
    intro shard
    have heq := hall gid (Finset.mem_erase.mpr ⟨h0, Finmap.mem_keys.mpr hgid⟩) shard
    unfold orphaned at heq
    split at heq
    · exact absurd heq.symm h0
    · exact heq
  refine Or.inr ⟨fun shard hzero ↦ ?_, Or.inr fun a ha b hb ↦ ?_⟩
  · exact absurd ((howner shard).symm.trans hzero) h0
  · rw [← hall a ha ⟨0, by decide⟩, ← hall b hb ⟨0, by decide⟩]
    omega

theorem spares_owners_iff (h : Leaving config gids) {ords : Orders} {shards : Shards}
    (hbalance : balance ords (orphaned config gids) (remaining config gids) = some shards) :
    OnlyOrphansMove config gids shards ↔ SparesOwners ords config gids := by
  have horphans : OnlyOrphansMove config gids (orphaned config gids) := by
    intro shard hne
    by_contra hstays
    exact hne (if_neg hstays)
  by_cases hleft : ∀ gid ∈ remaining config gids, gid = 0
  · -- gid `0` is all that remains: `balance` sees no gid
    obtain ⟨shards', hspec, hbal⟩ := balance_spec ords (orphaned config gids) (remaining config gids)
    have hnone : seen (orphaned config gids) (remaining config gids) = ∅ := by
      rw [h.seen_eq, Finset.eq_empty_iff_forall_notMem]
      intro gid hgid
      rw [Finset.mem_erase, Finmap.mem_keys] at hgid
      exact hgid.1 (hleft gid hgid.2)
    rw [Option.some.inj (hbalance.symm.trans hspec), hbal.unseen hnone]
    exact iff_of_true horphans (Or.inl hleft)
  · have hsome := hleft
    push Not at hsome
    obtain ⟨gid, hgid, h0⟩ := hsome
    by_cases hone : (startMap ords (orphaned config gids) (remaining config gids)).keys.card = 1
    · -- `balance` returns before it looks at the shards of gid `0`
      have hshards : balance ords (orphaned config gids) (remaining config gids) =
          some (orphaned config gids) := if_pos hone
      rw [← Option.some.inj (hshards.symm.trans hbalance)]
      exact iff_of_true horphans (h.of_card_eq_one hone hgid h0)
    · have hrun := (balanceRun_of_card_ne_one hone).1
      rw [Option.some.inj (hbalance.symm.trans hrun.result)]
      unfold SparesOwners
      rw [or_iff_right hleft]
      by_cases hzero : ∀ shard, config.shards shard = 0 → 0 ∈ gids
      · rw [and_iff_right hzero]
        exact onlyOrphansMove_iff hone h hzero
      · -- a shard of gid `0` finds another owner, although gid `0` stays
        refine iff_of_false (fun honly ↦ ?_) fun hspares ↦ hzero hspares.1
        push Not at hzero
        obtain ⟨shard, hshard, hstays⟩ := hzero
        have hseen := hrun.levelling.owned hrun.owned shard
        have hleaves := honly shard fun heq ↦ (mem_seen.mp hseen).1 (heq.trans hshard)
        rw [hshard] at hleaves
        exact hstays hleaves

theorem successor_le (h : Leaving config gids) (ords : Orders) (hmark : -1 ∉ remaining config gids)
    {gid : Int} (hgid : gid ∈ remaining config gids) (h0 : gid ≠ 0) :
    successor ords config gids ≤ gid := by
  have hothers : ∀ gid, gid ∈ others (startMap ords (orphaned config gids) (remaining config gids)) ↔
      gid ≠ 0 ∧ gid ∈ remaining config gids := by
    intro gid
    rw [others_startMap, h.seen_eq, Finset.mem_erase, Finmap.mem_keys]
  refine getNext_le (ords 1) (fun hmem ↦ hmark ?_) ((hothers gid).mpr ⟨h0, hgid⟩)
  exact ((hothers (-1)).mp (mem_others.mpr ⟨by decide, hmem⟩)).2

end Leaving

/-- `Leave` changes the owners of the leaving groups' shards only, exactly if the group that all of
them are given to first has no shards of its own or need not pass any on.  That group is the remaining
one with the least gid. -/
theorem leave_spares_owners_iff (sc : ShardCtrler) (ords : Orders) (gids : List Int)
    (hleave : Leaving sc.getLastConfig gids) :
    (∃ config, sc.dealLeave ords gids = some (sc.append config) ∧
      (OnlyOrphansMove sc.getLastConfig gids config.shards ↔
        SparesOwners (fun k ↦ ords (k + 1)) sc.getLastConfig gids)) ∧
      (-1 ∉ remaining sc.getLastConfig gids → ∀ gid ∈ remaining sc.getLastConfig gids, gid ≠ 0 →
        successor (fun k ↦ ords (k + 1)) sc.getLastConfig gids ≤ gid) := by
  obtain ⟨config, hdeal, _, _, hbalance⟩ := dealLeave_spec sc ords gids
  exact ⟨⟨config, hdeal, hleave.spares_owners_iff hbalance⟩,
    fun hmark _ ↦ hleave.successor_le _ hmark⟩

instance (ords : Orders) (config : Config) (gids : List Int) :
    Decidable (SparesOwners ords config gids) := by
  unfold SparesOwners
  infer_instance

instance (config : Config) (gids : List Int) (shards : Shards) :
    Decidable (OnlyOrphansMove config gids shards) := by
  unfold OnlyOrphansMove
  infer_instance

/-- Groups `1`, `2` and `3` own three, four and three shards.  When group `3` leaves, group `1` gets
its shards and passes shard `7`, one of its own, on to group `2`. -/
theorem leave_moves_shard_of_successor :
    ∃ sc sc', Lib.run execute start ([joinOne 1, joinOne 2, joinOne 3].map ascending) = some sc ∧
      Leaving sc.getLastConfig [3] ∧ sc.execute (ascending (.leave [3])) = some sc' ∧
      (List.finRange NShards).map sc.getLastConfig.shards = [3, 2, 2, 2, 2, 3, 3, 1, 1, 1] ∧
      (List.finRange NShards).map sc'.getLastConfig.shards = [1, 2, 2, 2, 2, 1, 1, 2, 1, 1] ∧
      ¬ OnlyOrphansMove sc.getLastConfig [3] sc'.getLastConfig.shards := by
  have hcheck : (Lib.run execute start ([joinOne 1, joinOne 2, joinOne 3].map ascending)).any
      (fun sc ↦ decide ((∀ shard, sc.getLastConfig.shards shard ∈ sc.getLastConfig.groups) ∧
        Balanced sc.getLastConfig ∧ 1 ∈ sc.getLastConfig.groups ∧
        (List.finRange NShards).map sc.getLastConfig.shards = [3, 2, 2, 2, 2, 3, 3, 1, 1, 1] ∧
        (sc.execute (ascending (.leave [3]))).any fun sc' ↦ decide (
          (List.finRange NShards).map sc'.getLastConfig.shards = [1, 2, 2, 2, 2, 1, 1, 2, 1, 1] ∧
          ¬ OnlyOrphansMove sc.getLastConfig [3] sc'.getLastConfig.shards))) = true := by
    decide +kernel
  obtain ⟨sc, hrun, htest⟩ := Lib.exists_run_of_any hcheck
  obtain ⟨howned, hbalanced, hone, hbefore, hleave⟩ := of_decide_eq_true htest
  obtain ⟨sc', hstep, htest'⟩ := (Option.any_eq_true _ _).mp hleave
  obtain ⟨hafter, hmoved⟩ := of_decide_eq_true htest'
  exact ⟨sc, sc', hrun, ⟨howned, hbalanced, 1, hone, by decide⟩, hstep, hbefore, hafter, hmoved⟩

/-- Of six groups the first and the last own one shard each.  When group `6` leaves, group `1` gets
its shard, the five remaining groups own two shards each and no other shard moves. -/
theorem leave_spares_five_groups :
    let joins := [joinOne 1, joinOne 2, joinOne 3, joinOne 4, joinOne 5, joinOne 6]
    ∃ sc config, Lib.run execute start (joins.map ascending) = some sc ∧
      Leaving sc.getLastConfig [6] ∧
      (List.finRange NShards).map sc.getLastConfig.shards = [5, 4, 5, 2, 2, 3, 3, 4, 6, 1] ∧
      sc.execute (ascending (.leave [6])) = some (sc.append config) ∧
      OnlyOrphansMove sc.getLastConfig [6] config.shards := by
  intro joins
  have hcheck : (Lib.run execute start (joins.map ascending)).any
      (fun sc ↦ decide ((∀ shard, sc.getLastConfig.shards shard ∈ sc.getLastConfig.groups) ∧
        Balanced sc.getLastConfig ∧ 1 ∈ sc.getLastConfig.groups ∧
        (List.finRange NShards).map sc.getLastConfig.shards = [5, 4, 5, 2, 2, 3, 3, 4, 6, 1] ∧
        SparesOwners (fun _ ↦ RangeOrder.increasing) sc.getLastConfig [6])) = true := by
    decide +kernel
  obtain ⟨sc, hrun, htest⟩ := Lib.exists_run_of_any hcheck
  obtain ⟨howned, hbalanced, hone, hshards, hspares⟩ := of_decide_eq_true htest
  have hleave : Leaving sc.getLastConfig [6] := ⟨howned, hbalanced, 1, hone, by decide⟩
  obtain ⟨⟨config, hdeal, hiff⟩, _⟩ := leave_spares_owners_iff sc (fun _ ↦ RangeOrder.increasing) [6]
    hleave
  exact ⟨sc, config, hrun, hleave, hshards, hdeal, hiff.mpr hspares⟩

end Lab6824.ShardCtrler
