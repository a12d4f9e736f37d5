import Lab6824.Lib.Levelling
import Lab6824.ShardCtrler.Config
import Mathlib.Data.Int.ConditionallyCompleteOrder
import Mathlib.Data.Prod.Lex

/-!
# Balance — what `balance` leaves behind

`balance` sees the gids that own a shard and those of the map it is given, gid `0` apart.  Its loop
always comes to an end, whatever the orders in which the maps are visited, and afterwards every shard
belongs to one of these gids and their loads differ by at most one.
-/

namespace Lab6824.ShardCtrler

open Lib (RangeOrder index load Level Levels Levelling Transfer potential transferAll)

/-! ## The gids with the most and with the fewest shards -/

/-- What `getGidWithMinShards` minimises: the number of shards, then the gid. -/
def minKey (m : ShardsMap) (gid : Int) : ℕ ×ₗ ℤ :=
  toLex ((index m gid).length, gid)

/-- What `getGidWithMaxShards` minimises: the number of shards, the other way round, then the gid. -/
def maxKey (m : ShardsMap) (gid : Int) : ℕᵒᵈ ×ₗ ℤ :=
  toLex (OrderDual.toDual (index m gid).length, gid)

/-- The state of both loops after they have chosen a gid. -/
def chosen (m : ShardsMap) : Option Int → Int × Int
  | none => (-1, 0)
  | some gid => ((index m gid).length, gid)

theorem minRound_eq_argAux (m : ShardsMap) (o : Option Int) {gid : Int} (h : gid ≠ 0) :
    minRound m (chosen m o) gid =
      chosen m (List.argAux (fun b c ↦ minKey m b < minKey m c) o gid) := by
  cases o with
  | none => simp [minRound, chosen, List.argAux, h]
  | some c =>
      have hlt : minKey m gid < minKey m c ↔ (index m gid).length < (index m c).length ∨
          (index m gid).length = (index m c).length ∧ gid < c := Prod.Lex.toLex_lt_toLex
      simp only [minRound, chosen, List.argAux, if_neg h, hlt]
      by_cases hless : (index m gid).length < (index m c).length
      · simp [hless]
      · by_cases heq : (index m gid).length = (index m c).length ∧ gid < c
        · simp [heq]
        · simp [hless, heq]

theorem maxRound_eq_argAux (m : ShardsMap) (o : Option Int) {gid : Int} (h : gid ≠ 0) :
    maxRound m (chosen m o) gid =
      chosen m (List.argAux (fun b c ↦ maxKey m b < maxKey m c) o gid) := by
  cases o with
  | none =>
      have hlen : ((index m gid).length : Int) > (chosen m none).1 := by
        show ((index m gid).length : Int) > -1
        omega
      simp only [maxRound, if_neg h, if_pos hlen]
      rfl
  | some c =>
      have hlt : maxKey m gid < maxKey m c ↔ (index m c).length < (index m gid).length ∨
          (index m gid).length = (index m c).length ∧ gid < c := Prod.Lex.toLex_lt_toLex
      simp only [maxRound, chosen, List.argAux, if_neg h, hlt]
      by_cases hmore : (index m c).length < (index m gid).length
      · simp [hmore]
      · by_cases heq : (index m gid).length = (index m c).length ∧ gid < c
        · simp [heq]
        · simp [hmore, heq]

/-- The gids other than `0` that `balance` has in its map. -/
def others (m : ShardsMap) : Finset Int :=
  m.keys.erase 0

theorem mem_others {m : ShardsMap} {gid : Int} : gid ∈ others m ↔ gid ≠ 0 ∧ gid ∈ m := by
  rw [others, Finset.mem_erase, Finmap.mem_keys]

theorem mem_visit_others {order : RangeOrder Int} {m : ShardsMap} {gid : Int} :
    gid ∈ (order.visit m.keys).filter (fun gid ↦ decide (gid ≠ 0)) ↔ gid ∈ others m := by
  rw [List.mem_filter, order.mem_visit, Finmap.mem_keys, mem_others, decide_eq_true_eq, and_comm]

/-- A loop over the map that keeps the best gid finds a best one, in whatever order it goes. -/
theorem exists_argmin {β : Type} [LinearOrder β] (order : RangeOrder Int) {m : ShardsMap}
    (hne : (others m).Nonempty) (f : Int → β) :
    ∃ gid ∈ others m, (∀ gid' ∈ others m, f gid ≤ f gid') ∧
      ((order.visit m.keys).filter fun gid ↦ decide (gid ≠ 0)).argmin f = some gid := by
  cases hmin : ((order.visit m.keys).filter fun gid ↦ decide (gid ≠ 0)).argmin f with
  | none =>
      rw [List.argmin_eq_none] at hmin
      obtain ⟨gid, hgid⟩ := hne
      have hvisit : gid ∈ (order.visit m.keys).filter fun gid ↦ decide (gid ≠ 0) :=
        mem_visit_others.mpr hgid
      rw [hmin] at hvisit
      cases hvisit
  | some gid =>
      refine ⟨gid, mem_visit_others.mp (List.argmin_mem hmin), fun gid' hgid' ↦ ?_, rfl⟩
      exact List.le_of_mem_argmin (mem_visit_others.mpr hgid') hmin

theorem getGidWithMinShards_eq (order : RangeOrder Int) (m : ShardsMap) :
    getGidWithMinShards order m = (chosen m
      (((order.visit m.keys).filter fun gid ↦ decide (gid ≠ 0)).argmin (minKey m))).2 := by
  unfold getGidWithMinShards
  rw [show ((-1, 0) : Int × Int) = chosen m none from rfl,
    Lib.foldl_eq_argmin (p := fun gid ↦ gid ≠ 0) (fun o a ha ↦ by simp [minRound, not_not.mp ha])
      (fun o a ha ↦ minRound_eq_argAux m o ha)]

theorem getGidWithMaxShards_eq (order : RangeOrder Int) (m : ShardsMap) :
    getGidWithMaxShards order m = (chosen m
      (((order.visit m.keys).filter fun gid ↦ decide (gid ≠ 0)).argmin (maxKey m))).2 := by
  unfold getGidWithMaxShards
  rw [show ((-1, 0) : Int × Int) = chosen m none from rfl,
    Lib.foldl_eq_argmin (p := fun gid ↦ gid ≠ 0) (fun o a ha ↦ by simp [maxRound, not_not.mp ha])
      (fun o a ha ↦ maxRound_eq_argAux m o ha)]

theorem getGidWithMinShards_spec (order : RangeOrder Int) {m : ShardsMap}
    (hne : (others m).Nonempty) :
    getGidWithMinShards order m ∈ others m ∧
      ∀ gid ∈ others m, minKey m (getGidWithMinShards order m) ≤ minKey m gid := by
  obtain ⟨gid, hmem, hle, hmin⟩ := exists_argmin order hne (minKey m)
  rw [getGidWithMinShards_eq, hmin]
  exact ⟨hmem, hle⟩

theorem getGidWithMaxShards_spec (order : RangeOrder Int) {m : ShardsMap}
    (hne : (others m).Nonempty) :
    getGidWithMaxShards order m ∈ others m ∧
      ∀ gid ∈ others m, maxKey m (getGidWithMaxShards order m) ≤ maxKey m gid := by
  obtain ⟨gid, hmem, hle, hmin⟩ := exists_argmin order hne (maxKey m)
  rw [getGidWithMaxShards_eq, hmin]
  exact ⟨hmem, hle⟩

theorem minKey_le {m : ShardsMap} {a b : Int} (h : minKey m a ≤ minKey m b) :
    (index m a).length < (index m b).length ∨ (index m a).length = (index m b).length ∧ a ≤ b :=
  Prod.Lex.toLex_le_toLex.mp h

theorem maxKey_le {m : ShardsMap} {a b : Int} (h : maxKey m a ≤ maxKey m b) :
    (index m b).length < (index m a).length ∨ (index m a).length = (index m b).length ∧ a ≤ b :=
  Prod.Lex.toLex_le_toLex.mp h

/-- What the loop of `getNext` does with a gid other than `0`; `-1` stands for no gid yet. -/
def pick (ans gid : Int) : Int :=
  if ans = -1 then gid else if gid < ans then gid else ans

theorem getNext_eq (order : RangeOrder Int) (m : ShardsMap) :
    getNext order m = ((order.visit m.keys).filter fun gid ↦ decide (gid ≠ 0)).foldl pick (-1) := by
  rw [List.foldl_filter]
  unfold getNext
  congr 1
  funext ans gid
  by_cases h0 : gid = 0 <;> simp [pick, h0]

theorem foldl_pick_mem (gid : Int) (gids : List Int) : gids.foldl pick gid ∈ gid :: gids := by
  induction gids generalizing gid with
  | nil => exact List.mem_cons_self
  | cons x xs ih =>
      have hstep : pick gid x = gid ∨ pick gid x = x := by
        unfold pick
        split_ifs <;> simp
      rw [List.foldl_cons]
      rcases List.mem_cons.mp (ih (pick gid x)) with heq | hmem
      · rw [heq]
        rcases hstep with h | h <;> simp [h]
      · exact List.mem_cons_of_mem _ (List.mem_cons_of_mem _ hmem)

theorem foldl_pick_le {gid : Int} {gids : List Int} (hmark : ∀ x ∈ gid :: gids, x ≠ -1) :
    ∀ x ∈ gid :: gids, gids.foldl pick gid ≤ x := by
  induction gids generalizing gid with
  | nil => simp
  | cons y ys ih =>
      have hgid : gid ≠ -1 := hmark gid List.mem_cons_self
      have hy : y ≠ -1 := hmark y (List.mem_cons_of_mem _ List.mem_cons_self)
      have hpick : pick gid y = min gid y := by
        unfold pick
        split_ifs <;> omega
      have hmark' : ∀ x ∈ pick gid y :: ys, x ≠ -1 := by
        intro x hx
        rcases List.mem_cons.mp hx with rfl | htail
        · omega
        · exact hmark x (List.mem_cons_of_mem _ (List.mem_cons_of_mem _ htail))
      have hrest := ih hmark'
      have hfirst := hrest _ List.mem_cons_self
      intro x hx
      rw [List.foldl_cons]
      rcases List.mem_cons.mp hx with rfl | hx'
      · omega
      · rcases List.mem_cons.mp hx' with rfl | htail
        · omega
        · exact hrest x (List.mem_cons_of_mem _ htail)

/-- `getNext` picks among the gids other than `0`, beginning with the first. -/
theorem exists_getNext_eq (order : RangeOrder Int) {m : ShardsMap} (hne : (others m).Nonempty) :
    ∃ gid gids, getNext order m = gids.foldl pick gid ∧ ∀ x, x ∈ gid :: gids ↔ x ∈ others m := by
  have hvisit := fun x ↦ @mem_visit_others order m x
  rw [getNext_eq]
  cases hgids : (order.visit m.keys).filter fun gid ↦ decide (gid ≠ 0) with
  | nil =>
      obtain ⟨gid, hgid⟩ := hne
      rw [← hvisit, hgids] at hgid
      cases hgid
  | cons gid gids =>
      rw [hgids] at hvisit
      exact ⟨gid, gids, rfl, hvisit⟩

/-- `getNext` returns a gid of the map, if there is one besides `0`. -/
theorem getNext_mem (order : RangeOrder Int) {m : ShardsMap} (hne : (others m).Nonempty) :
    getNext order m ∈ others m := by
  obtain ⟨gid, gids, heq, hmem⟩ := exists_getNext_eq order hne
  rw [heq, ← hmem]
  exact foldl_pick_mem gid gids

/-- It is the least of them, unless the mark for no gid is a gid. -/
theorem getNext_le (order : RangeOrder Int) {m : ShardsMap} (hmark : -1 ∉ m) {gid : Int}
    (hgid : gid ∈ others m) : getNext order m ≤ gid := by
  obtain ⟨first, gids, heq, hmem⟩ := exists_getNext_eq order ⟨gid, hgid⟩
  rw [heq]
  refine foldl_pick_le (fun x hx hx' ↦ hmark ?_) gid ((hmem gid).mpr hgid)
  rw [← hx']
  exact (mem_others.mp ((hmem x).mp hx)).2

/-! ## The map follows the array -/

/-- The list of every gid holds the shards that it owns, each once. -/
structure Tracks (m : ShardsMap) (shards : Shards) : Prop where
  nodup : ∀ gid, (index m gid).Nodup
  mem_iff : ∀ gid shard, shard ∈ index m gid ↔ shards shard = gid

namespace Tracks

variable {m : ShardsMap} {shards : Shards}

theorem length_eq (h : Tracks m shards) (gid : Int) :
    (index m gid).length = load shards gid := by
  rw [← List.toFinset_card_of_nodup (h.nodup gid), load]
  congr 1
  ext shard
  simp [h.mem_iff]

theorem mem_of_owner (h : Tracks m shards) (shard : Fin NShards) : shards shard ∈ m := by
  by_contra hno
  have hmem := (h.mem_iff _ shard).mpr rfl
  rw [Lib.index_of_notMem hno] at hmem
  cases hmem

/-- A map with the same lists. -/
theorem congr (h : Tracks m shards) {m' : ShardsMap} (hidx : ∀ gid, index m' gid = index m gid) :
    Tracks m' shards where
  nodup := fun gid ↦ by rw [hidx]; exact h.nodup gid
  mem_iff := fun gid shard ↦ by rw [hidx]; exact h.mem_iff gid shard

end Tracks

theorem index_ensure (m : ShardsMap) (gid gid' : Int) :
    index (ensure m gid) gid' = index m gid' := by
  unfold ensure
  split
  · rfl
  · rename_i hno
    by_cases hg : gid' = gid
    · rw [hg, Lib.index_insert_self, Lib.index_of_notMem hno]
    · rw [Lib.index_insert_of_ne hg]

theorem mem_ensure {m : ShardsMap} {gid gid' : Int} : gid' ∈ ensure m gid ↔ gid' = gid ∨ gid' ∈ m := by
  unfold ensure
  split
  · rename_i hmem
    refine ⟨Or.inr, ?_⟩
    rintro (rfl | h)
    · exact hmem
    · exact h
  · exact Finmap.mem_insert

/-- After the shards of a list the map holds those of the list, in its order. -/
theorem index_addShard_foldl (shards : Shards) (xs : List (Fin NShards)) (gid : Int) :
    index (xs.foldl (addShard shards) ∅) gid =
      xs.filter fun shard ↦ decide (shards shard = gid) := by
  induction xs using List.reverseRecOn with
  | nil => rfl
  | append_singleton xs x ih =>
      rw [List.foldl_append, List.filter_append, ← ih]
      generalize xs.foldl (addShard shards) ∅ = m
      show index ((ensure m (shards x)).insert (shards x) (index (ensure m (shards x)) _ ++ [x])) gid
        = _
      by_cases hg : gid = shards x
      · rw [hg, Lib.index_insert_self, index_ensure]
        simp
      · rw [Lib.index_insert_of_ne hg, index_ensure, List.filter_cons_of_neg (by simp [Ne.symm hg]),
          List.filter_nil, List.append_nil]

theorem mem_addShard_foldl (shards : Shards) (xs : List (Fin NShards)) (gid : Int) :
    gid ∈ xs.foldl (addShard shards) ∅ ↔ ∃ shard ∈ xs, shards shard = gid := by
  induction xs using List.reverseRecOn with
  | nil => simp [Finmap.notMem_empty]
  | append_singleton xs x ih =>
      rw [List.foldl_append]
      show gid ∈ Finmap.insert _ _ (ensure _ _) ↔ _
      rw [Finmap.mem_insert, mem_ensure, ih]
      simp only [List.mem_append, List.mem_singleton]
      constructor
      · rintro (rfl | rfl | ⟨shard, hmem, rfl⟩)
        · exact ⟨x, Or.inr rfl, rfl⟩
        · exact ⟨x, Or.inr rfl, rfl⟩
        · exact ⟨shard, Or.inl hmem, rfl⟩
      · rintro ⟨shard, hmem | rfl, rfl⟩
        · exact Or.inr (Or.inr ⟨shard, hmem, rfl⟩)
        · exact Or.inl rfl

theorem getShardsMap_tracks (shards : Shards) : Tracks (getShardsMap shards) shards where
  nodup := by
    intro gid
    rw [getShardsMap, index_addShard_foldl]
    exact (List.nodup_finRange _).filter _
  mem_iff := by
    intro gid shard
    rw [getShardsMap, index_addShard_foldl]
    simp

theorem index_ensure_foldl (m : ShardsMap) (gids : List Int) (gid : Int) :
    index (gids.foldl ensure m) gid = index m gid := by
  induction gids generalizing m with
  | nil => rfl
  | cons g gids ih => rw [List.foldl_cons, ih, index_ensure]

theorem mem_ensure_foldl {m : ShardsMap} {gids : List Int} {gid : Int} :
    gid ∈ gids.foldl ensure m ↔ gid ∈ gids ∨ gid ∈ m := by
  induction gids generalizing m with
  | nil => simp
  | cons g gids ih => rw [List.foldl_cons, ih, mem_ensure, List.mem_cons, or_left_comm, or_assoc]

theorem others_insert {m : ShardsMap} {gid : Int} (h : gid = 0 ∨ gid ∈ others m)
    (list : List (Fin NShards)) : others (m.insert gid list) = others m := by
  ext gid'
  rw [mem_others, mem_others, Finmap.mem_insert]
  constructor
  · rintro ⟨h0, rfl | hm⟩
    · exact mem_others.mp (h.resolve_left h0)
    · exact ⟨h0, hm⟩
  · exact fun hg ↦ ⟨hg.1, Or.inr hg.2⟩

/-! ## The rounds of `balance` -/

/-- The gids that `balance` sees. -/
def seen (shards : Shards) (newGroups : Groups) : Finset Int :=
  (Finset.univ.image shards ∪ newGroups.keys).erase 0

theorem mem_seen {shards : Shards} {newGroups : Groups} {gid : Int} :
    gid ∈ seen shards newGroups ↔ gid ≠ 0 ∧ ((∃ shard, shards shard = gid) ∨ gid ∈ newGroups) := by
  simp [seen, Finmap.mem_keys]

/-- The shards of gid `0` have found an owner, and the map still follows the array. -/
theorem moveZero_spec {m : ShardsMap} {shards : Shards} {next : Int} (h : Tracks m shards)
    (hnext : next ∈ others m) :
    Tracks (moveZero next m shards).1 (moveZero next m shards).2 ∧
      others (moveZero next m shards).1 = others m ∧
      ∀ shard, (moveZero next m shards).2 shard ∈ others m := by
  rw [mem_others] at hnext
  unfold moveZero
  cases hzero : m.lookup 0 with
  | none =>
      have hno : (0 : Int) ∉ m := Finmap.lookup_eq_none.mp hzero
      refine ⟨h, rfl, fun shard ↦ mem_others.mpr ⟨fun h0 ↦ hno ?_, h.mem_of_owner shard⟩⟩
      rw [← h0]
      exact h.mem_of_owner shard
  | some list =>
      have hlist : index m 0 = list := by
        rw [index, hzero]
        rfl
      have hmem : ∀ shard, shard ∈ list ↔ shards shard = 0 := by
        intro shard
        rw [← hlist]
        exact h.mem_iff 0 shard
      have hidx := Lib.index_insert_insert m next 0 (index m next ++ list) []
      dsimp only
      refine ⟨⟨fun gid ↦ ?_, fun gid shard ↦ ?_⟩, ?_, fun shard ↦ ?_⟩
      · rw [hidx]
        split_ifs
        · exact List.nodup_nil
        · refine (h.nodup next).append (hlist ▸ h.nodup 0) fun shard hs hs' ↦ ?_
          exact hnext.1 (((h.mem_iff _ _).mp hs).symm.trans ((hmem shard).mp hs'))
        · exact h.nodup gid
      · rw [hidx]
        have howner := h.mem_iff gid shard
        by_cases hs : shard ∈ list
        · have hs0 := (hmem shard).mp hs
          rw [if_pos hs]
          split_ifs with h0 hn
          · simp [h0, hnext.1]
          · simp [hs, hn]
          · rw [howner, hs0]
            exact ⟨fun he ↦ absurd he.symm h0, fun he ↦ absurd he.symm hn⟩
        · have hs0 : shards shard ≠ 0 := fun he ↦ hs ((hmem shard).mpr he)
          rw [if_neg hs]
          split_ifs with h0 hn
          · simp [h0, hs0]
          · rw [List.mem_append, or_iff_left hs, ← hn, howner]
          · exact howner
      · rw [others_insert (Or.inl rfl), others_insert (Or.inr (mem_others.mpr hnext))]
      · split_ifs with hs
        · exact mem_others.mpr hnext
        · exact mem_others.mpr ⟨fun he ↦ hs ((hmem shard).mpr he), h.mem_of_owner shard⟩

/-- The array with the shards of gid `0` given to `next`. -/
def settle (next : Int) (shards : Shards) : Shards := fun shard ↦
  if shards shard = 0 then next else shards shard

theorem moveZero_shards {m : ShardsMap} {shards : Shards} (h : Tracks m shards) (next : Int) :
    (moveZero next m shards).2 = settle next shards := by
  funext shard
  have hmem := h.mem_iff 0 shard
  unfold moveZero settle
  cases hzero : m.lookup 0 with
  | none =>
      have hno : shards shard ≠ 0 := by
        intro h0
        rw [← hmem, index, hzero] at h0
        cases h0
      dsimp only
      rw [if_neg hno]
  | some list =>
      rw [index, hzero, Option.getD_some] at hmem
      dsimp only
      by_cases hs : shard ∈ list
      · rw [if_pos hs, if_pos (hmem.mp hs)]
      · rw [if_neg hs, if_neg fun h0 ↦ hs (hmem.mpr h0)]

/-- `next` gets the shards of gid `0` after its own. -/
theorem index_moveZero {m : ShardsMap} {next : Int} (hnext : next ≠ 0) (shards : Shards) :
    index (moveZero next m shards).1 next = index m next ++ index m 0 := by
  unfold moveZero
  cases hzero : m.lookup 0 with
  | none =>
      have hnil : index m 0 = [] := by
        rw [index, hzero]
        rfl
      rw [hnil, List.append_nil]
  | some list =>
      dsimp only
      rw [Lib.index_insert_of_ne hnext, Lib.index_insert_self]
      congr 1
      rw [index, hzero]
      rfl

/-- One round: the first shard of `max` goes to `min`. -/
theorem Tracks.moveShard {m : ShardsMap} {shards : Shards} {min max : Int} {shard : Fin NShards}
    {rest : List (Fin NShards)} (h : Tracks m shards) (hne : min ≠ max)
    (hmax : index m max = shard :: rest) :
    Tracks ((m.insert min (index m min ++ [shard])).insert max rest)
      (Function.update shards shard min) := by
  have hidx := Lib.index_insert_insert m min max (index m min ++ [shard]) rest
  have hnodup := h.nodup max
  rw [hmax, List.nodup_cons] at hnodup
  have howner : shards shard = max := (h.mem_iff max shard).mp (by rw [hmax]; exact List.mem_cons_self)
  have hmem : ∀ s, s ∈ shard :: rest ↔ shards s = max := by
    intro s
    rw [← hmax]
    exact h.mem_iff max s
  refine ⟨fun gid ↦ ?_, fun gid s ↦ ?_⟩
  · rw [hidx]
    split_ifs
    · exact hnodup.2
    · refine (h.nodup min).append (List.nodup_singleton _) ?_
      rw [List.disjoint_singleton, h.mem_iff, howner]
      exact hne.symm
    · exact h.nodup gid
  · rw [hidx]
    by_cases hs : s = shard
    · rw [hs, Function.update_self]
      split_ifs with hg hn
      · simp [hnodup.1, hg, hne]
      · simp [hn]
      · rw [h.mem_iff, howner]
        exact ⟨fun he ↦ absurd he.symm hg, fun he ↦ absurd he.symm hn⟩
    · rw [Function.update_of_ne hs]
      split_ifs with hg hn
      · rw [hg, ← hmem, List.mem_cons, or_iff_right hs]
      · rw [List.mem_append, List.mem_singleton, or_iff_left hs, hn, h.mem_iff]
      · exact h.mem_iff gid s

/-- The two gids that a round chooses: a least and a most loaded one, the same one if all loads are
equal. -/
structure Extremes (m : ShardsMap) (shards : Shards) (min max : Int) : Prop where
  min_mem : min ∈ others m
  max_mem : max ∈ others m
  low : ∀ gid ∈ others m, load shards min ≤ load shards gid
  high : ∀ gid ∈ others m, load shards gid ≤ load shards max
  tie : load shards min = load shards max → min = max

theorem Tracks.extremes {m : ShardsMap} {shards : Shards} (h : Tracks m shards)
    (hne : (others m).Nonempty) (order order' : RangeOrder Int) :
    Extremes m shards (getGidWithMinShards order m) (getGidWithMaxShards order' m) := by
  obtain ⟨hmin, hminLe⟩ := getGidWithMinShards_spec order hne
  obtain ⟨hmax, hmaxLe⟩ := getGidWithMaxShards_spec order' hne
  have hlow : ∀ gid ∈ others m, _ := fun gid hgid ↦ minKey_le (hminLe gid hgid)
  have hhigh : ∀ gid ∈ others m, _ := fun gid hgid ↦ maxKey_le (hmaxLe gid hgid)
  simp only [h.length_eq] at hlow hhigh
  refine ⟨hmin, hmax, fun gid hgid ↦ ?_, fun gid hgid ↦ ?_, fun heq ↦ ?_⟩
  · have hle := hlow gid hgid
    omega
  · have hle := hhigh gid hgid
    omega
  · have h₁ := hlow _ hmax
    have h₂ := hhigh _ hmin
    omega

/-- The transfer that an iteration of the loop makes; `none` if it leaves the loop. -/
def nextMove (order order' : RangeOrder Int) (m : ShardsMap) : Option (Transfer (Fin NShards) Int) :=
  let min := getGidWithMinShards order m
  let max := getGidWithMaxShards order' m
  if ((index m min).length : Int) = (index m max).length - 1 ∨ (index m max).length ≤ 1 ∨
      min = max then
    none
  else (index m max).head?.map fun shard ↦ ⟨shard, max, min⟩

/-- The lists after a transfer. -/
def moveOn (m : ShardsMap) (t : Transfer (Fin NShards) Int) : ShardsMap :=
  let m := m.insert t.target (index m t.target ++ [t.item])
  m.insert t.source ((index m t.source).drop 1)

/-- The transfers of the loop, one after the other. -/
def balanceMoves (ords : Orders) : Nat → Nat → ShardsMap → List (Transfer (Fin NShards) Int)
  | 0, _, _ => []
  | fuel + 1, round, m =>
    match nextMove (ords (2 * round)) (ords (2 * round + 1)) m with
    | none => []
    | some t => t :: balanceMoves ords fuel (round + 1) (moveOn m t)

/-- The lists and the array after each of the transfers. -/
def loopStates : ShardsMap → Shards → List (Transfer (Fin NShards) Int) → List (ShardsMap × Shards)
  | _, _, [] => []
  | m, shards, t :: ts => (moveOn m t, t.apply shards) :: loopStates (moveOn m t) (t.apply shards) ts

theorem balanceLoop_succ (ords : Orders) (fuel round : Nat) (m : ShardsMap) (shards : Shards) :
    balanceLoop ords (fuel + 1) round m shards =
      match nextMove (ords (2 * round)) (ords (2 * round + 1)) m with
      | none => some shards
      | some t => balanceLoop ords fuel (round + 1) (moveOn m t) (t.apply shards) := by
  rw [balanceLoop, nextMove]
  dsimp only
  split
  · rfl
  · rename_i hgo
    push Not at hgo
    -- the list of the chosen gid is not empty where the loop goes on
    cases hlist : index m (getGidWithMaxShards (ords (2 * round + 1)) m) with
    | nil =>
        rw [hlist] at hgo
        simp at hgo
    | cons shard rest => rfl

/-- What an iteration does: it leaves the loop if the loads are level, and levels them by a transfer
of the first shard of a list otherwise; the map follows the array. -/
theorem Tracks.nextMove_cases {m : ShardsMap} {shards : Shards} (h : Tracks m shards)
    (hne : (others m).Nonempty) (order order' : RangeOrder Int) :
    (nextMove order order' m = none ∧ Level (others m) shards) ∨
      ∃ t, nextMove order order' m = some t ∧ Levels (others m) shards t ∧
        (index m t.source).head? = some t.item ∧ Tracks (moveOn m t) (t.apply shards) ∧
        others (moveOn m t) = others m := by
  have hext := h.extremes hne order order'
  unfold nextMove
  generalize getGidWithMinShards order m = min at *
  generalize getGidWithMaxShards order' m = max at *
  dsimp only
  split
  · rename_i hstop
    rw [h.length_eq, h.length_eq] at hstop
    refine Or.inl ⟨rfl, fun a ha b hb ↦ ?_⟩
    have ha' := hext.high a ha
    have hb' := hext.low b hb
    rcases hstop with hgap | hfew | rfl
    · omega
    · omega
    · omega
  · rename_i hgo
    push Not at hgo
    obtain ⟨hgap, hmany, hdiff⟩ := hgo
    cases hlist : index m max with
    | nil =>
        rw [hlist] at hmany
        simp at hmany
    | cons shard rest =>
        rw [h.length_eq, h.length_eq] at hgap
        have hgap' : load shards min + 2 ≤ load shards max := by
          have hle := hext.low max hext.max_mem
          have hneq : load shards min ≠ load shards max := fun heq ↦ hdiff (hext.tie heq)
          omega
        have howner : shards shard = max :=
          (h.mem_iff max shard).mp (by rw [hlist]; exact List.mem_cons_self)
        have hmap : moveOn m ⟨shard, max, min⟩ =
            (m.insert min (index m min ++ [shard])).insert max rest := by
          unfold moveOn
          dsimp only
          rw [Lib.index_insert_of_ne (Ne.symm hdiff), hlist]
          rfl
        refine Or.inr ⟨⟨shard, max, min⟩, rfl,
          ⟨howner, hext.max_mem, hext.min_mem, hext.high, hext.low, hgap'⟩, by rw [hlist]; rfl, ?_, ?_⟩
        · rw [hmap]
          exact h.moveShard hdiff hlist
        · have hmin := others_insert (Or.inr hext.min_mem) (index m min ++ [shard])
          rw [hmap, others_insert (Or.inr (hmin ▸ hext.max_mem)), hmin]

/-- The loop ends after at most as many rounds as the potential has units.  Its transfers level the
loads, and the map follows the array all the time. -/
theorem balanceLoop_spec (ords : Orders) {fuel : Nat} (round : Nat) {m : ShardsMap} {shards : Shards}
    (h : Tracks m shards) (howned : ∀ shard, shards shard ∈ others m)
    (hfuel : potential (others m) shards < fuel) :
    balanceLoop ords fuel round m shards =
        some (transferAll shards (balanceMoves ords fuel round m)) ∧
      Levelling (others m) shards (balanceMoves ords fuel round m) ∧
      Level (others m) (transferAll shards (balanceMoves ords fuel round m)) ∧
      ∀ st ∈ loopStates m shards (balanceMoves ords fuel round m), Tracks st.1 st.2 := by
  induction fuel generalizing round m shards with
  | zero => omega
  | succ fuel ih =>
      rw [balanceLoop_succ, balanceMoves]
      rcases h.nextMove_cases ⟨_, howned ⟨0, by decide⟩⟩ (ords (2 * round)) (ords (2 * round + 1))
        with ⟨hstop, hlevel⟩ | ⟨t, ht, hlevels, _, htracks, hothers⟩
      · rw [hstop]
        exact ⟨rfl, trivial, hlevel, by simp [loopStates]⟩
      · rw [ht]
        have hdecr : potential (others m) (t.apply shards) < potential (others m) shards :=
          Lib.potential_move_lt hlevels.source_mem hlevels.target_mem hlevels.owner
            hlevels.source_ne_target hlevels.gap
        have hrest := ih (round + 1) htracks
        rw [hothers] at hrest
        obtain ⟨hloop, hmoves, hlevel, hstates⟩ := hrest (hlevels.owned howned) (by omega)
        refine ⟨hloop, ⟨hlevels, hmoves⟩, hlevel, fun st hst ↦ ?_⟩
        rcases List.mem_cons.mp hst with rfl | htail
        · exact htracks
        · exact hstates st htail

/-- What `balance` is for: every shard ends with one of the gids that it sees, and their loads differ
by at most one.  Where it sees no gid it changes nothing. -/
structure Rebalanced (shards : Shards) (newGroups : Groups) (shards' : Shards) : Prop where
  unseen : seen shards newGroups = ∅ → shards' = shards
  owned : (seen shards newGroups).Nonempty → ∀ shard, shards' shard ∈ seen shards newGroups
  level : Level (seen shards newGroups) shards'

/-! ## `balance` -/

/-- The map that `balance` makes at its start. -/
def startMap (ords : Orders) (shards : Shards) (newGroups : Groups) : ShardsMap :=
  ((ords 0).visit newGroups.keys).foldl ensure (getShardsMap shards)

section Start

variable (ords : Orders) (shards : Shards) (newGroups : Groups)

theorem startMap_tracks : Tracks (startMap ords shards newGroups) shards :=
  (getShardsMap_tracks shards).congr (index_ensure_foldl _ _)

theorem index_startMap (gid : Int) :
    index (startMap ords shards newGroups) gid =
      (List.finRange NShards).filter fun shard ↦ decide (shards shard = gid) := by
  rw [startMap, index_ensure_foldl, getShardsMap, index_addShard_foldl]

theorem others_startMap : others (startMap ords shards newGroups) = seen shards newGroups := by
  ext gid
  rw [mem_others, mem_seen, startMap, mem_ensure_foldl, (ords 0).mem_visit, Finmap.mem_keys,
    getShardsMap, mem_addShard_foldl, or_comm]
  simp

variable {ords shards newGroups}

/-- A map with one gid gives it everything. -/
theorem owner_eq_of_card_eq_one (hone : (startMap ords shards newGroups).keys.card = 1) {gid : Int}
    (hgid : gid ∈ startMap ords shards newGroups) (shard : Fin NShards) : shards shard = gid := by
  obtain ⟨gid', hgid'⟩ := Finset.card_eq_one.mp hone
  have hall : ∀ g, g ∈ startMap ords shards newGroups → g = gid' := by
    intro g hg
    rw [← Finmap.mem_keys, hgid', Finset.mem_singleton] at hg
    exact hg
  rw [hall _ ((startMap_tracks ords shards newGroups).mem_of_owner shard), hall gid hgid]

/-- A map with several gids has one besides `0`. -/
theorem seen_nonempty_of_card_ne_one (hmany : (startMap ords shards newGroups).keys.card ≠ 1) :
    (seen shards newGroups).Nonempty := by
  rw [← others_startMap ords]
  by_contra hempty
  rw [Finset.not_nonempty_iff_eq_empty] at hempty
  have hzero : ∀ gid, gid ∈ startMap ords shards newGroups → gid = 0 := by
    intro gid hgid
    by_contra h0
    have hmem := mem_others.mpr ⟨h0, hgid⟩
    rw [hempty] at hmem
    cases hmem
  have howner := (startMap_tracks ords shards newGroups).mem_of_owner ⟨0, by decide⟩
  apply hmany
  rw [Finset.card_eq_one]
  refine ⟨0, Finset.eq_singleton_iff_unique_mem.mpr ⟨?_, fun gid hgid ↦ ?_⟩⟩
  · rw [Finmap.mem_keys, ← hzero _ howner]
    exact howner
  · exact hzero gid (Finmap.mem_keys.mp hgid)

end Start

/-- The gid that takes the shards of gid `0`. -/
def heir (ords : Orders) (shards : Shards) (newGroups : Groups) : Int :=
  getNext (ords 1) (startMap ords shards newGroups)

/-- The transfers that `balance` makes once the shards of gid `0` have an owner. -/
def transfers (ords : Orders) (shards : Shards) (newGroups : Groups) :
    List (Transfer (Fin NShards) Int) :=
  balanceMoves (fun k ↦ ords (k + 2)) (NShards * NShards + 1) 0
    (moveZero (heir ords shards newGroups) (startMap ords shards newGroups) shards).1

/-- What `balance` does where it has several gids in its map. -/
structure BalanceRun (ords : Orders) (shards : Shards) (newGroups : Groups) : Prop where
  heir_mem : heir ords shards newGroups ∈ seen shards newGroups
  owned : ∀ shard, settle (heir ords shards newGroups) shards shard ∈ seen shards newGroups
  result : balance ords shards newGroups = some
    (transferAll (settle (heir ords shards newGroups) shards) (transfers ords shards newGroups))
  levelling : Levelling (seen shards newGroups) (settle (heir ords shards newGroups) shards)
    (transfers ords shards newGroups)
  level : Level (seen shards newGroups)
    (transferAll (settle (heir ords shards newGroups) shards) (transfers ords shards newGroups))

section Run

variable {ords : Orders} {shards : Shards} {newGroups : Groups}

theorem heir_mem_others (hmany : (startMap ords shards newGroups).keys.card ≠ 1) :
    heir ords shards newGroups ∈ others (startMap ords shards newGroups) := by
  refine getNext_mem (ords 1) ?_
  rw [others_startMap]
  exact seen_nonempty_of_card_ne_one hmany

/-- The map follows the array before the loop and after each of its iterations. -/
theorem balanceRun_of_card_ne_one (hmany : (startMap ords shards newGroups).keys.card ≠ 1) :
    BalanceRun ords shards newGroups ∧
      let moved := moveZero (heir ords shards newGroups) (startMap ords shards newGroups) shards
      Tracks moved.1 moved.2 ∧
        ∀ st ∈ loopStates moved.1 moved.2 (transfers ords shards newGroups), Tracks st.1 st.2 := by
  have hstart := startMap_tracks ords shards newGroups
  have hheir := heir_mem_others hmany
  obtain ⟨htracks, hothers, howned⟩ := moveZero_spec hstart hheir
  have hbound := Lib.potential_le (K := others (startMap ords shards newGroups)) howned
  rw [Fintype.card_fin, ← hothers] at hbound
  rw [← hothers] at howned
  obtain ⟨hloop, hmoves, hlevel, hstates⟩ := balanceLoop_spec (fun k ↦ ords (k + 2)) 0 htracks
    howned (Nat.lt_succ_of_le hbound)
  have hbalance : balance ords shards newGroups = _ := (if_neg hmany).trans hloop
  rw [hothers, others_startMap, moveZero_shards hstart] at howned hmoves hlevel
  rw [moveZero_shards hstart] at hbalance
  rw [others_startMap] at hheir
  exact ⟨⟨hheir, howned, hbalance, hmoves, hlevel⟩, htracks, hstates⟩

/-- The first transfer takes the first shard of its owner's list. -/
theorem head_transfers {t : Transfer (Fin NShards) Int} {ts : List (Transfer (Fin NShards) Int)}
    (hmany : (startMap ords shards newGroups).keys.card ≠ 1)
    (h : transfers ords shards newGroups = t :: ts) :
    (index (moveZero (heir ords shards newGroups) (startMap ords shards newGroups) shards).1
      t.source).head? = some t.item := by
  have hheir := heir_mem_others hmany
  obtain ⟨htracks, hothers, _⟩ := moveZero_spec (startMap_tracks ords shards newGroups) hheir
  unfold transfers at h
  rw [balanceMoves] at h
  rcases htracks.nextMove_cases ⟨_, hothers ▸ hheir⟩ (ords (2 * 0 + 2)) (ords (2 * 0 + 1 + 2))
    with ⟨hstop, _⟩ | ⟨t', ht, _, hhead, _⟩
  · rw [hstop] at h
    cases h
  · rw [ht] at h
    rw [← (List.cons.inj h).1]
    exact hhead

end Run

/-- `balance` always returns. -/
theorem balance_spec (ords : Orders) (shards : Shards) (newGroups : Groups) :
    ∃ shards', balance ords shards newGroups = some shards' ∧
      Rebalanced shards newGroups shards' := by
  by_cases hone : (startMap ords shards newGroups).keys.card = 1
  · -- one gid has everything
    have hall : ∀ gid ∈ seen shards newGroups, ∀ shard, shards shard = gid := by
      intro gid hgid
      rw [← others_startMap ords, mem_others] at hgid
      exact owner_eq_of_card_eq_one hone hgid.2
    refine ⟨shards, if_pos hone, fun _ ↦ rfl, fun ⟨gid, hgid⟩ shard ↦ ?_, fun a ha b hb ↦ ?_⟩
    · rw [hall gid hgid shard]
      exact hgid
    · rw [← hall a ha ⟨0, by decide⟩, ← hall b hb ⟨0, by decide⟩]
      omega
  · obtain ⟨hrun, _⟩ := balanceRun_of_card_ne_one hone
    refine ⟨_, hrun.result, fun hempty ↦ ?_, fun _ ↦ hrun.levelling.owned hrun.owned, hrun.level⟩
    exact absurd (seen_nonempty_of_card_ne_one hone) (by rw [hempty]; exact Finset.not_nonempty_empty)

/-- The lists and the array when the loop of `balance` begins, or `balance` returns before it, and
after each iteration. -/
def balanceStates (ords : Orders) (shards : Shards) (newGroups : Groups) : List (ShardsMap × Shards) :=
  let m := startMap ords shards newGroups
  if m.keys.card = 1 then [(m, shards)]
  else
    let moved := moveZero (heir ords shards newGroups) m shards
    moved :: loopStates moved.1 moved.2 (transfers ords shards newGroups)

theorem getLast_loopStates (m : ShardsMap) (shards : Shards)
    (ts : List (Transfer (Fin NShards) Int)) :
    ((m, shards) :: loopStates m shards ts).getLast?.map Prod.snd = some (transferAll shards ts) := by
  induction ts generalizing m shards with
  | nil => rfl
  | cons t ts ih =>
      rw [loopStates, List.getLast?_cons_cons, ih]
      rfl

/-- The state after `k` transfers is the one that the loop goes on from after `k` iterations. -/
theorem balanceLoop_loopStates {ords : Orders} {fuel round k : Nat} {m : ShardsMap}
    {shards shards' : Shards} {st : ShardsMap × Shards}
    (hloop : balanceLoop ords fuel round m shards = some shards')
    (hst : ((m, shards) :: loopStates m shards (balanceMoves ords fuel round m))[k]? = some st) :
    balanceLoop ords (fuel - k) (round + k) st.1 st.2 = some shards' := by
  induction k generalizing fuel round m shards with
  | zero =>
      rw [← Option.some.inj hst]
      exact hloop
  | succ k ih =>
      rw [List.getElem?_cons_succ] at hst
      cases fuel with
      | zero => cases hst
      | succ fuel =>
          rw [balanceLoop_succ] at hloop
          rw [balanceMoves] at hst
          cases hnext : nextMove (ords (2 * round)) (ords (2 * round + 1)) m with
          | none =>
              rw [hnext] at hst
              cases hst
          | some t =>
              rw [hnext] at hst hloop
              have hrest := ih hloop hst
              rw [Nat.add_right_comm, Nat.add_assoc] at hrest
              rw [Nat.add_sub_add_right]
              exact hrest

/-- `balance` returns, whatever the orders of its loops: without a gid to give shards to it changes
nothing, and otherwise it gives them to the gids that it sees, level.  When its loop begins and after
each iteration, the lists of its map are a partition of the shards by their owners; it is from these
lists and this array that the loop goes on. -/
theorem balance_levels_what_it_sees (ords : Orders) (shards : Shards) (newGroups : Groups) :
    ∃ shards', balance ords shards newGroups = some shards' ∧
      Rebalanced shards newGroups shards' ∧
      (∀ st ∈ balanceStates ords shards newGroups, Tracks st.1 st.2) ∧
      (balanceStates ords shards newGroups).getLast?.map Prod.snd = some shards' ∧
      ((startMap ords shards newGroups).keys.card ≠ 1 →
        ∀ k st, (balanceStates ords shards newGroups)[k]? = some st →
          balanceLoop (fun k ↦ ords (k + 2)) (NShards * NShards + 1 - k) k st.1 st.2 =
            some shards') := by
  obtain ⟨shards', hbalance, hspec⟩ := balance_spec ords shards newGroups
  refine ⟨shards', hbalance, hspec, ?_⟩
  unfold balanceStates
  by_cases hone : (startMap ords shards newGroups).keys.card = 1
  · have hsame : balance ords shards newGroups = some shards := if_pos hone
    rw [if_pos hone, ← hbalance, hsame]
    refine ⟨fun st hst ↦ ?_, rfl, fun hmany ↦ absurd hone hmany⟩
    rw [List.mem_singleton.mp hst]
    exact startMap_tracks ords shards newGroups
  · obtain ⟨hrun, htracks, hstates⟩ := balanceRun_of_card_ne_one hone
    have hloop : balance ords shards newGroups = balanceLoop (fun k ↦ ords (k + 2))
        (NShards * NShards + 1) 0
        (moveZero (heir ords shards newGroups) (startMap ords shards newGroups) shards).1
        (moveZero (heir ords shards newGroups) (startMap ords shards newGroups) shards).2 :=
      if_neg hone
    rw [if_neg hone]
    refine ⟨fun st hst ↦ ?_, ?_, fun _ k st hst ↦ ?_⟩
    · rcases List.mem_cons.mp hst with rfl | htail
      · exact htracks
      · exact hstates st htail
    · rw [← hbalance, hrun.result, ← moveZero_shards (startMap_tracks ords shards newGroups)]
      exact getLast_loopStates _ _ _
    · have hrest := balanceLoop_loopStates (hloop.symm.trans hbalance) hst
      rw [Nat.zero_add] at hrest
      exact hrest

end Lab6824.ShardCtrler
