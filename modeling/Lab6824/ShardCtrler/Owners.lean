import Lab6824.ShardCtrler.Balance

/-!
# Owners — every shard has an owner, and the owners share the work

A run of the controller executes `Join`, `Leave`, `Move` and `Query` operations one after the other.
Every configuration that it makes gives its shards to its own groups.  After a `Leave` the groups are
level; after a `Join` they are level only if `balance`, which is shown the new groups and the owners of
shards, has seen all of them or has had a shard for each.
-/

namespace Lab6824.ShardCtrler

open Lib (RangeOrder index load Level)

/-! ## One specification for each operation -/

theorem copy_eq (order : RangeOrder Int) (source : Config) : copy order source = source := by
  have hgroups : (copy order source).groups = source.groups := by
    apply Finmap.ext_lookup
    intro gid
    unfold copy
    dsimp only
    rw [Lib.lookup_foldl_insert _ _ _ fun k hk ↦ Finmap.mem_keys.mp ((order.mem_visit _ _).mp hk)]
    split
    · rfl
    · rename_i hno
      rw [order.mem_visit, Finmap.mem_keys] at hno
      rw [Finmap.lookup_empty, Finmap.lookup_eq_none.mpr hno]
  cases source
  simpa [copy] using hgroups

theorem getLastConfig_append (sc : ShardCtrler) (config : Config) :
    (sc.append config).getLastConfig = config :=
  List.getLast_append_singleton _

theorem dealJoin_spec (sc : ShardCtrler) (ords : Orders) (servers : Groups) :
    ∃ config, sc.dealJoin ords servers = some (sc.append config) ∧
      (∀ gid, gid ∈ config.groups ↔ gid ∈ servers ∨ gid ∈ sc.getLastConfig.groups) ∧
      Rebalanced sc.getLastConfig.shards servers config.shards ∧
      balance (fun k ↦ ords (k + 2)) sc.getLastConfig.shards servers = some config.shards := by
  obtain ⟨shards, hbalance, hspec⟩ := balance_spec (fun k ↦ ords (k + 2)) sc.getLastConfig.shards
    servers
  unfold dealJoin copyLastConfig
  rw [copy_eq]
  dsimp only
  rw [hbalance]
  refine ⟨_, rfl, fun gid ↦ ?_, hspec, rfl⟩
  have hlookup := Lib.lookup_foldl_insert servers sc.getLastConfig.groups
    ((ords 1).visit servers.keys) (fun k hk ↦ Finmap.mem_keys.mp (((ords 1).mem_visit _ _).mp hk)) gid
  have hvisit : gid ∈ (ords 1).visit servers.keys ↔ gid ∈ servers := by
    rw [(ords 1).mem_visit, Finmap.mem_keys]
  by_cases hmem : gid ∈ servers
  · rw [if_pos (hvisit.mpr hmem)] at hlookup
    rw [Lib.mem_of_lookup_eq hlookup]
    simp [hmem]
  · rw [if_neg (fun h ↦ hmem (hvisit.mp h))] at hlookup
    rw [Lib.mem_of_lookup_eq hlookup]
    simp [hmem]

/-- The shards after `dealLeave` has taken those of the leaving groups away. -/
def orphaned (config : Config) (gids : List Int) : Shards := fun shard ↦
  if config.shards shard ∈ gids then 0 else config.shards shard

theorem mem_foldl_erase (groups : Groups) (gids : List Int) (gid : Int) :
    gid ∈ gids.foldl (fun m gid ↦ m.erase gid) groups ↔ gid ∈ groups ∧ gid ∉ gids := by
  induction gids generalizing groups with
  | nil => simp
  | cons g gids ih =>
      rw [List.foldl_cons, ih, Finmap.mem_erase, List.mem_cons]
      tauto

/-- The groups that a `Leave` keeps. -/
def remaining (config : Config) (gids : List Int) : Groups :=
  gids.foldl (fun m gid ↦ m.erase gid) config.groups

theorem mem_remaining {config : Config} {gids : List Int} {gid : Int} :
    gid ∈ remaining config gids ↔ gid ∈ config.groups ∧ gid ∉ gids :=
  mem_foldl_erase config.groups gids gid

theorem dealLeave_spec (sc : ShardCtrler) (ords : Orders) (gids : List Int) :
    ∃ config, sc.dealLeave ords gids = some (sc.append config) ∧
      (∀ gid, gid ∈ config.groups ↔ gid ∈ sc.getLastConfig.groups ∧ gid ∉ gids) ∧
      Rebalanced (orphaned sc.getLastConfig gids) config.groups config.shards ∧
      balance (fun k ↦ ords (k + 1)) (orphaned sc.getLastConfig gids)
        (remaining sc.getLastConfig gids) = some config.shards := by
  obtain ⟨shards, hbalance, hspec⟩ := balance_spec (fun k ↦ ords (k + 1))
    (orphaned sc.getLastConfig gids) (remaining sc.getLastConfig gids)
  have hdeal : sc.dealLeave ords gids = some (sc.append
      { num := sc.getLastConfig.num + 1
        shards := shards
        groups := remaining sc.getLastConfig gids }) := by
    unfold dealLeave copyLastConfig
    rw [copy_eq]
    unfold orphaned remaining at hbalance
    dsimp only
    rw [hbalance]
    rfl
  exact ⟨_, hdeal, fun _ ↦ mem_remaining, hspec, hbalance⟩

theorem dealMove_spec (sc : ShardCtrler) (ords : Orders) {shard : Int} (gid : Int) (h0 : 0 ≤ shard)
    (hlt : shard < NShards) :
    ∃ config k, sc.dealMove ords shard gid = some (sc.append config) ∧
      config.groups = sc.getLastConfig.groups ∧
      config.shards = Function.update sc.getLastConfig.shards k gid := by
  have hrange : 0 ≤ shard ∧ shard.toNat < NShards := ⟨h0, by omega⟩
  unfold dealMove copyLastConfig
  rw [copy_eq]
  dsimp only
  rw [dif_pos hrange]
  exact ⟨_, _, rfl, rfl, rfl⟩

theorem exists_dealQuery (sc : ShardCtrler) (ords : Orders) {num : Int} (hnum : -1 ≤ num) :
    ∃ config, sc.dealQuery ords num = some config := by
  unfold dealQuery copyConfig
  split_ifs with hlast hneg
  · exact ⟨_, rfl⟩
  · omega
  · have hlt : num.toNat < sc.configs.length := by omega
    rw [List.getElem?_eq_getElem hlt]
    exact ⟨_, rfl⟩

/-! ## Live owners -/

/-- Without groups all shards belong to gid `0`; otherwise every shard belongs to a group. -/
structure LiveOwners (config : Config) : Prop where
  unassigned : config.groups = ∅ → ∀ shard, config.shards shard = 0
  assigned : config.groups ≠ ∅ → ∀ shard, config.shards shard ∈ config.groups

/-- What a caller of the controller keeps to: positive gids in `Join`, a shard in range and a gid of
the current configuration in `Move`. -/
def Valid (sc : ShardCtrler) (c : Command) : Prop :=
  match c.op with
  | .join servers => ∀ gid ∈ servers, 0 < gid
  | .leave _ => True
  | .move shard gid => 0 ≤ shard ∧ shard < NShards ∧ gid ∈ sc.getLastConfig.groups
  | .query _ => True

/-- A configuration of a run. -/
structure Proper (config : Config) : Prop extends LiveOwners config where
  positive : ∀ gid ∈ config.groups, 0 < gid

theorem groups_ne_empty {groups : Groups} {gid : Int} (h : gid ∈ groups) : groups ≠ ∅ := by
  rintro rfl
  exact Finmap.notMem_empty h

theorem groups_eq_empty {groups : Groups} (h : ∀ gid, gid ∉ groups) : groups = ∅ := by
  apply Finmap.ext_lookup
  intro gid
  rw [Finmap.lookup_empty, Finmap.lookup_eq_none.mpr (h gid)]

namespace Proper

variable {config config' : Config}

/-- A gid other than `0` that owns a shard is a group. -/
theorem mem_of_owner (h : Proper config) {shard : Fin NShards} (h0 : config.shards shard ≠ 0) :
    config.shards shard ∈ config.groups :=
  h.assigned (fun hempty ↦ h0 (h.unassigned hempty shard)) shard

theorem initial : Proper {} where
  unassigned := fun _ _ ↦ rfl
  assigned := fun hne ↦ absurd rfl hne
  positive := fun _ hgid ↦ absurd hgid Finmap.notMem_empty

/-- A configuration whose groups are what `balance` has seen. -/
theorem of_rebalanced {shards : Shards} {newGroups : Groups}
    (hbal : Rebalanced shards newGroups config'.shards)
    (hsub : ∀ gid ∈ seen shards newGroups, gid ∈ config'.groups)
    (hnone : seen shards newGroups = ∅ → config'.groups = ∅ ∧ ∀ shard, shards shard = 0)
    (hpos : ∀ gid ∈ config'.groups, 0 < gid) : Proper config' := by
  by_cases hseen : seen shards newGroups = ∅
  · obtain ⟨hempty, hzero⟩ := hnone hseen
    rw [← hbal.unseen hseen] at hzero
    exact ⟨⟨fun _ ↦ hzero, fun hne ↦ absurd hempty hne⟩, hpos⟩
  · have howned := hbal.owned (Finset.nonempty_iff_ne_empty.mpr hseen)
    refine ⟨⟨fun hempty shard ↦ ?_, fun _ shard ↦ hsub _ (howned shard)⟩, hpos⟩
    exact absurd hempty (groups_ne_empty (hsub _ (howned shard)))

theorem seen_join_mem (h : Proper config) {servers : Groups}
    (hgroups : ∀ gid, gid ∈ config'.groups ↔ gid ∈ servers ∨ gid ∈ config.groups) {gid : Int}
    (hgid : gid ∈ seen config.shards servers) : gid ∈ config'.groups := by
  obtain ⟨h0, ⟨shard, rfl⟩ | hnew⟩ := mem_seen.mp hgid
  · exact (hgroups _).mpr (Or.inr (h.mem_of_owner h0))
  · exact (hgroups _).mpr (Or.inl hnew)

theorem join_positive (h : Proper config) {servers : Groups} (hvalid : ∀ gid ∈ servers, 0 < gid)
    (hgroups : ∀ gid, gid ∈ config'.groups ↔ gid ∈ servers ∨ gid ∈ config.groups) :
    ∀ gid ∈ config'.groups, 0 < gid := by
  intro gid hgid
  rcases (hgroups gid).mp hgid with hnew | hold
  · exact hvalid gid hnew
  · exact h.positive gid hold

/-- `balance` sees nothing on `Join` only if there is no group, old or new. -/
theorem join_unseen (h : Proper config) {servers : Groups} (hvalid : ∀ gid ∈ servers, 0 < gid)
    (hgroups : ∀ gid, gid ∈ config'.groups ↔ gid ∈ servers ∨ gid ∈ config.groups)
    (hseen : seen config.shards servers = ∅) :
    config'.groups = ∅ ∧ ∀ shard, config.shards shard = 0 := by
  have hno : ∀ gid, gid ∉ seen config.shards servers := by
    rw [hseen]
    exact fun gid ↦ Finset.notMem_empty gid
  have hzero : ∀ shard, config.shards shard = 0 := by
    intro shard
    by_contra h0
    exact hno _ (mem_seen.mpr ⟨h0, Or.inl ⟨shard, rfl⟩⟩)
  refine ⟨groups_eq_empty fun gid hgid ↦ ?_, hzero⟩
  rcases (hgroups gid).mp hgid with hnew | hold
  · exact hno gid (mem_seen.mpr ⟨(hvalid gid hnew).ne', Or.inr hnew⟩)
  · -- an old group would make every shard's owner a group, but gid `0` owns them
    have hpos := h.positive _ (h.assigned (groups_ne_empty hold) ⟨0, by decide⟩)
    rw [hzero] at hpos
    omega

theorem join (h : Proper config) {servers : Groups} (hvalid : ∀ gid ∈ servers, 0 < gid)
    (hgroups : ∀ gid, gid ∈ config'.groups ↔ gid ∈ servers ∨ gid ∈ config.groups)
    (hbal : Rebalanced config.shards servers config'.shards) : Proper config' :=
  of_rebalanced hbal (fun _ ↦ h.seen_join_mem hgroups) (h.join_unseen hvalid hgroups)
    (h.join_positive hvalid hgroups)

/-- `dealLeave` shows `balance` exactly the groups that remain. -/
theorem seen_leave (h : Proper config) {gids : List Int}
    (hgroups : ∀ gid, gid ∈ config'.groups ↔ gid ∈ config.groups ∧ gid ∉ gids) :
    seen (orphaned config gids) config'.groups = config'.groups.keys := by
  ext gid
  rw [mem_seen, Finmap.mem_keys]
  constructor
  · rintro ⟨h0, ⟨shard, rfl⟩ | hold⟩
    · unfold orphaned at h0 ⊢
      split_ifs at h0 ⊢ with hleft
      · exact absurd rfl h0
      · exact (hgroups _).mpr ⟨h.mem_of_owner h0, hleft⟩
    · exact hold
  · intro hgid
    exact ⟨(h.positive gid ((hgroups gid).mp hgid).1).ne', Or.inr hgid⟩

theorem leave (h : Proper config) {gids : List Int}
    (hgroups : ∀ gid, gid ∈ config'.groups ↔ gid ∈ config.groups ∧ gid ∉ gids)
    (hbal : Rebalanced (orphaned config gids) config'.groups config'.shards) : Proper config' := by
  have hseen := h.seen_leave hgroups
  refine of_rebalanced hbal (fun gid hgid ↦ ?_) (fun hnone ↦ ?_)
    fun gid hgid ↦ h.positive gid ((hgroups gid).mp hgid).1
  · rw [hseen, Finmap.mem_keys] at hgid
    exact hgid
  · rw [hseen] at hnone
    have hno : ∀ gid, gid ∉ config'.groups := by
      intro gid hgid
      rw [← Finmap.mem_keys, hnone] at hgid
      cases hgid
    refine ⟨groups_eq_empty hno, fun shard ↦ ?_⟩
    unfold orphaned
    split_ifs with hleft
    · rfl
    · by_contra h0
      exact hno _ ((hgroups _).mpr ⟨h.mem_of_owner h0, hleft⟩)

theorem move (h : Proper config) {k : Fin NShards} {gid : Int} (hgid : gid ∈ config.groups)
    (hgroups : config'.groups = config.groups)
    (hshards : config'.shards = Function.update config.shards k gid) : Proper config' := by
  refine ⟨⟨fun hempty ↦ ?_, fun hne shard ↦ ?_⟩, by rw [hgroups]; exact h.positive⟩
  · rw [hgroups] at hempty
    exact absurd hempty (groups_ne_empty hgid)
  · rw [hshards, hgroups]
    by_cases hk : shard = k
    · rw [hk, Function.update_self]
      exact hgid
    · rw [Function.update_of_ne hk]
      exact h.assigned (groups_ne_empty hgid) shard

end Proper

/-- An executed operation leaves the list of configurations alone or appends a proper one. -/
theorem execute_proper {sc sc' : ShardCtrler} {c : Command} (h : Proper sc.getLastConfig)
    (hvalid : Valid sc c) (hstep : sc.execute c = some sc') :
    sc' = sc ∨ ∃ config, sc' = sc.append config ∧ Proper config := by
  unfold Valid at hvalid
  unfold execute at hstep
  cases hop : c.op with
  | join servers =>
      rw [hop] at hvalid hstep
      obtain ⟨config, hdeal, hgroups, hbal, _⟩ := dealJoin_spec sc c.ords servers
      have hsc := Option.some.inj (hdeal.symm.trans hstep)
      exact Or.inr ⟨config, hsc.symm, h.join hvalid hgroups hbal⟩
  | leave gids =>
      rw [hop] at hstep
      obtain ⟨config, hdeal, hgroups, hbal, _⟩ := dealLeave_spec sc c.ords gids
      have hsc := Option.some.inj (hdeal.symm.trans hstep)
      exact Or.inr ⟨config, hsc.symm, h.leave hgroups hbal⟩
  | move shard gid =>
      rw [hop] at hvalid hstep
      obtain ⟨h0, hlt, hgid⟩ := hvalid
      obtain ⟨config, k, hdeal, hgroups, hshards⟩ := dealMove_spec sc c.ords gid h0 hlt
      have hsc := Option.some.inj (hdeal.symm.trans hstep)
      exact Or.inr ⟨config, hsc.symm, h.move hgid hgroups hshards⟩
  | query num =>
      rw [hop] at hstep
      obtain ⟨_, _, rfl⟩ := Option.map_eq_some_iff.mp hstep
      exact Or.inl rfl

/-- Only a `Query` for a number below `-1` has no result. -/
theorem exists_execute (sc : ShardCtrler) {c : Command} (hvalid : Valid sc c)
    (hquery : ∀ num, c.op = .query num → -1 ≤ num) : ∃ sc', sc.execute c = some sc' := by
  unfold Valid at hvalid
  unfold execute
  cases hop : c.op with
  | join servers =>
      obtain ⟨config, hdeal, _⟩ := dealJoin_spec sc c.ords servers
      exact ⟨_, hdeal⟩
  | leave gids =>
      obtain ⟨config, hdeal, _⟩ := dealLeave_spec sc c.ords gids
      exact ⟨_, hdeal⟩
  | move shard gid =>
      rw [hop] at hvalid
      obtain ⟨config, k, hdeal, _⟩ := dealMove_spec sc c.ords gid hvalid.1 hvalid.2.1
      exact ⟨_, hdeal⟩
  | query num =>
      obtain ⟨config, hdeal⟩ := exists_dealQuery sc c.ords (hquery num hop)
      exact ⟨sc, congrArg (Option.map fun _ ↦ sc) hdeal⟩

/-- All configurations of a state of a run are proper. -/
def AllProper (sc : ShardCtrler) : Prop :=
  ∀ config ∈ sc.configs, Proper config

theorem AllProper.last {sc : ShardCtrler} (h : AllProper sc) : Proper sc.getLastConfig :=
  h _ (List.getLast_mem _)

theorem AllProper.start : AllProper start := by
  intro config hconfig
  rw [List.mem_singleton.mp hconfig]
  exact Proper.initial

theorem AllProper.step (sc : ShardCtrler) (c : Command) (sc' : ShardCtrler) (h : AllProper sc)
    (hvalid : Valid sc c) (hstep : sc.execute c = some sc') : AllProper sc' := by
  rcases execute_proper h.last hvalid hstep with rfl | ⟨new, rfl, hnew⟩
  · exact h
  · intro config hconfig
    rcases List.mem_append.mp hconfig with hold | hlast
    · exact h config hold
    · rw [List.mem_singleton.mp hlast]
      exact hnew

theorem AllProper.run {sc : ShardCtrler} {cs : List Command}
    (hok : Lib.Along execute Valid ShardCtrler.start cs)
    (hrun : Lib.run execute ShardCtrler.start cs = some sc) : AllProper sc :=
  Lib.run_invariant AllProper.step AllProper.start hok hrun

theorem exists_run {sc : ShardCtrler} {cs : List Command} (hok : Lib.Along execute Valid sc cs)
    (hquery : ∀ c ∈ cs, ∀ num, c.op = .query num → -1 ≤ num) :
    ∃ sc', Lib.run execute sc cs = some sc' := by
  induction cs generalizing sc with
  | nil => exact ⟨sc, rfl⟩
  | cons c cs ih =>
      obtain ⟨mid, hstep⟩ := exists_execute sc hok.1 (hquery c List.mem_cons_self)
      obtain ⟨sc', hrun⟩ := ih (hok.2 mid hstep) fun c' hc' ↦ hquery c' (List.mem_cons_of_mem c hc')
      exact ⟨sc', Lib.run_cons.mpr ⟨mid, hstep, hrun⟩⟩

/-- Every configuration of a run gives each shard to one of its groups, or to gid `0` if it has no
group; and the run comes to its end if no `Query` asks for a number below `-1`. -/
theorem shards_have_live_owners (cs : List Command)
    (hok : Lib.Along execute Valid start cs) :
    (∀ sc, Lib.run execute start cs = some sc → ∀ config ∈ sc.configs, LiveOwners config) ∧
      ((∀ c ∈ cs, ∀ num, c.op = .query num → -1 ≤ num) →
        ∃ sc, Lib.run execute start cs = some sc) :=
  ⟨fun _ hrun config hconfig ↦ (AllProper.run hok hrun config hconfig).toLiveOwners, exists_run hok⟩

instance (sc : ShardCtrler) (c : Command) : Decidable (Valid sc c) := by
  unfold Valid
  cases c.op <;> infer_instance

def joinOne (gid : Int) : Op := .join (Finmap.singleton gid [])

def moveTo (gid shard : Int) : Op := .move shard gid

/-- Two groups join, and the shards of the second are moved to the first. -/
def idleOps : List Op :=
  [joinOne 1, joinOne 2] ++ [0, 1, 2, 3, 4].map (moveTo 1)

/-- An operation whose loops visit the gids in increasing order. -/
def ascending (op : Op) : Command := ⟨op, fun _ ↦ RangeOrder.increasing⟩

theorem live_owners_after_leave :
    ∃ sc, Lib.run execute start
        ((idleOps ++ [Op.leave [1, 1, 7], Op.query (-1)]).map ascending) = some sc ∧
      ∀ config ∈ sc.configs, LiveOwners config := by
  obtain ⟨howners, hreturns⟩ := shards_have_live_owners
    ((idleOps ++ [Op.leave [1, 1, 7], Op.query (-1)]).map ascending) (by decide +kernel)
  obtain ⟨sc, hrun⟩ := hreturns (by simp [ascending, idleOps, joinOne, moveTo])
  exact ⟨sc, hrun, howners sc hrun⟩

/-! ## Balance -/

/-- Any two groups own the same number of shards, or one more. -/
def Balanced (config : Config) : Prop :=
  Level config.groups.keys config.shards

instance (config : Config) : Decidable (Balanced config) := by
  unfold Balanced
  infer_instance

/-- The operation shows `balance` every group: each old group that does not join again owns a
shard.  It does no harm to miss some if those that it does see are as many as the shards. -/
def SeesGroups (sc : ShardCtrler) (op : Op) : Prop :=
  match op with
  | .join servers =>
    (∀ gid ∈ sc.getLastConfig.groups,
      (∃ shard, sc.getLastConfig.shards shard = gid) ∨ gid ∈ servers) ∨
      NShards ≤ (seen sc.getLastConfig.shards servers).card
  | _ => True

instance (sc : ShardCtrler) (op : Op) : Decidable (SeesGroups sc op) := by
  unfold SeesGroups
  induction op using Op.casesOn <;> infer_instance

theorem Proper.join_balanced_iff {config config' : Config} (h : Proper config) {servers : Groups}
    (hvalid : ∀ gid ∈ servers, 0 < gid)
    (hgroups : ∀ gid, gid ∈ config'.groups ↔ gid ∈ servers ∨ gid ∈ config.groups)
    (hbal : Rebalanced config.shards servers config'.shards) (hne : config'.groups ≠ ∅) :
    Balanced config' ↔
      (∀ gid ∈ config.groups, (∃ shard, config.shards shard = gid) ∨ gid ∈ servers) ∨
        NShards ≤ (seen config.shards servers).card := by
  have hseen : (seen config.shards servers).Nonempty :=
    Finset.nonempty_iff_ne_empty.mpr fun hnone ↦ hne (h.join_unseen hvalid hgroups hnone).1
  have hsub : seen config.shards servers ⊆ config'.groups.keys := fun gid hgid ↦
    Finmap.mem_keys.mpr (h.seen_join_mem hgroups hgid)
  have hlevel := hbal.level.superset_iff (hbal.owned hseen) hsub
  rw [Fintype.card_fin] at hlevel
  refine hlevel.trans (or_congr_left ?_)
  constructor
  · intro hall gid hgid
    exact (mem_seen.mp (hall (Finmap.mem_keys.mpr ((hgroups gid).mpr (Or.inr hgid))))).2
  · intro hall gid hgid
    rw [Finmap.mem_keys] at hgid
    have hpos := h.join_positive hvalid hgroups gid hgid
    exact mem_seen.mpr ⟨hpos.ne', ((hgroups gid).mp hgid).elim Or.inr (hall gid)⟩

theorem Proper.leave_balanced {config config' : Config} (h : Proper config) {gids : List Int}
    (hgroups : ∀ gid, gid ∈ config'.groups ↔ gid ∈ config.groups ∧ gid ∉ gids)
    (hbal : Rebalanced (orphaned config gids) config'.groups config'.shards) :
    Balanced config' := by
  unfold Balanced
  rw [← h.seen_leave hgroups]
  exact hbal.level

/-- A `Leave` of a run always makes a balanced configuration; a `Join` makes one exactly if
`balance` is shown every group, or as many groups as there are shards. -/
theorem balanced_iff_sees_groups (cs : List Command) (sc : ShardCtrler) (c : Command)
    (hok : Lib.Along execute Valid start cs) (hrun : Lib.run execute start cs = some sc)
    (hvalid : Valid sc c)
    (hop : (∃ servers, c.op = .join servers) ∨ ∃ gids, c.op = .leave gids) :
    ∃ sc', sc.execute c = some sc' ∧
      (sc'.getLastConfig.groups ≠ ∅ → (Balanced sc'.getLastConfig ↔ SeesGroups sc c.op)) := by
  have h := (AllProper.run hok hrun).last
  unfold Valid at hvalid
  unfold execute
  rcases hop with ⟨servers, hop⟩ | ⟨gids, hop⟩
  · rw [hop] at hvalid ⊢
    obtain ⟨config, hdeal, hgroups, hbal, _⟩ := dealJoin_spec sc c.ords servers
    refine ⟨_, hdeal, fun hne ↦ ?_⟩
    rw [getLastConfig_append] at hne ⊢
    exact h.join_balanced_iff hvalid hgroups hbal hne
  · rw [hop]
    obtain ⟨config, hdeal, hgroups, hbal, _⟩ := dealLeave_spec sc c.ords gids
    refine ⟨_, hdeal, fun _ ↦ ?_⟩
    rw [getLastConfig_append]
    exact iff_of_true (h.leave_balanced hgroups hbal) trivial

/-- Group `3` joins a controller whose group `2` owns no shard: it is given five shards, and group
`2` still owns none. -/
theorem unbalanced_after_join :
    Lib.Along execute Valid start ((idleOps ++ [joinOne 3]).map ascending) ∧
      ∃ sc, Lib.run execute start ((idleOps ++ [joinOne 3]).map ascending) = some sc ∧
        (List.finRange NShards).map sc.getLastConfig.shards = [3, 3, 3, 3, 3, 1, 1, 1, 1, 1] ∧
        sc.getLastConfig.groups.keys = {1, 2, 3} ∧ ¬ Balanced sc.getLastConfig := by
  refine ⟨by decide +kernel, ?_⟩
  have hcheck : (Lib.run execute start ((idleOps ++ [joinOne 3]).map ascending)).any
      (fun sc ↦ decide (
        (List.finRange NShards).map sc.getLastConfig.shards = [3, 3, 3, 3, 3, 1, 1, 1, 1, 1] ∧
        sc.getLastConfig.groups.keys = {1, 2, 3} ∧ ¬ Balanced sc.getLastConfig)) = true := by
    decide +kernel
  obtain ⟨sc, hrun, htest⟩ := Lib.exists_run_of_any hcheck
  exact ⟨sc, hrun, of_decide_eq_true htest⟩

/-- Without the moves, group `3` is one of three level groups. -/
theorem balanced_after_join :
    ∃ sc sc', Lib.run execute start ([joinOne 1, joinOne 2].map ascending) = some sc ∧
      sc.execute (ascending (joinOne 3)) = some sc' ∧ sc'.getLastConfig.groups ≠ ∅ ∧
      Balanced sc'.getLastConfig := by
  have hcheck : (Lib.run execute start ([joinOne 1, joinOne 2].map ascending)).any
      (fun sc ↦ decide (Valid sc (ascending (joinOne 3)) ∧ SeesGroups sc (joinOne 3) ∧
        (sc.execute (ascending (joinOne 3))).any fun sc' ↦
          decide (3 ∈ sc'.getLastConfig.groups))) = true := by
    decide +kernel
  obtain ⟨sc, hrun, htest⟩ := Lib.exists_run_of_any hcheck
  obtain ⟨hvalid, hsees, hthree⟩ := of_decide_eq_true htest
  obtain ⟨sc', hstep, hbalanced⟩ := balanced_iff_sees_groups _ sc (ascending (joinOne 3))
    (by decide +kernel) hrun hvalid (Or.inl ⟨_, rfl⟩)
  rw [hstep] at hthree
  have hne := groups_ne_empty (of_decide_eq_true hthree)
  exact ⟨sc, sc', hrun, hstep, hne, (hbalanced hne).mpr hsees⟩

end Lab6824.ShardCtrler
