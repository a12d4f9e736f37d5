import Lab6824.Lib.GoMap
import Lab6824.Lib.System

/-!
# Config — the shard controller's configurations

What `fetchApply` executes for each of the four operations, with the helper functions of `balance`.
Every loop over a map takes the order in which it visits the keys as an argument, so an execution is
given by the operation and a sequence of such orders.  A result `none` stands for an index that is
out of range, or for a `balance` loop that has not come to its end after the given number of rounds.
-/

namespace Lab6824

open Lib (RangeOrder index)

namespace ShardCtrler

def NShards : Nat := 10

/-- `[NShards]int`: the owner of each shard. -/
abbrev Shards := Fin NShards → Int

/-- `map[int][]string`: the servers of each group. -/
abbrev Groups := Finmap fun _ : Int ↦ List String

/-- `map[int][]int`: the shards of each gid. -/
abbrev ShardsMap := Finmap fun _ : Int ↦ List (Fin NShards)

/-- The orders that the loops of one execution use, one after the other. -/
abbrev Orders := Nat → RangeOrder Int

structure Config where
  num : Int := 0
  shards : Shards := fun _ ↦ 0
  groups : Groups := ∅

/-! ## The helpers of `balance` -/

/-- `if _, ok := m[gid]; !ok` then `m[gid] = make([]int, 0)`. -/
def ensure (m : ShardsMap) (gid : Int) : ShardsMap :=
  if gid ∈ m then m else m.insert gid []

/-- One iteration of the loop in `getShardsMap`. -/
def addShard (shards : Shards) (m : ShardsMap) (shard : Fin NShards) : ShardsMap :=
  let gid := shards shard
  let m := ensure m gid
  m.insert gid (index m gid ++ [shard])

def getShardsMap (shards : Shards) : ShardsMap :=
  (List.finRange NShards).foldl (addShard shards) ∅

/-- The least gid other than `0`, where all of them are positive; `-1` if there is none. -/
def getNext (order : RangeOrder Int) (m : ShardsMap) : Int :=
  (order.visit m.keys).foldl (fun ans gid ↦
    if gid = 0 then ans
    else if ans = -1 then gid
    else if gid < ans then gid
    else ans) (-1)

/-- One iteration of the loop in `getGidWithMaxShards`, with `ma` and `ans` as state. -/
def maxRound (m : ShardsMap) (st : Int × Int) (gid : Int) : Int × Int :=
  let len : Int := (index m gid).length
  if gid = 0 then st
  else if len > st.1 then (len, gid)
  else if len = st.1 ∧ gid < st.2 then (st.1, gid)
  else st

def getGidWithMaxShards (order : RangeOrder Int) (m : ShardsMap) : Int :=
  ((order.visit m.keys).foldl (maxRound m) (-1, 0)).2

/-- One iteration of the loop in `getGidWithMinShards`, with `mi` and `ans` as state. -/
def minRound (m : ShardsMap) (st : Int × Int) (gid : Int) : Int × Int :=
  let len : Int := (index m gid).length
  if gid = 0 then st
  else if st.1 = -1 then (len, gid)
  else if len < st.1 then (len, gid)
  else if len = st.1 ∧ gid < st.2 then (st.1, gid)
  else st

def getGidWithMinShards (order : RangeOrder Int) (m : ShardsMap) : Int :=
  ((order.visit m.keys).foldl (minRound m) (-1, 0)).2

/-! ## `balance` -/

/-- The shards of gid `0` go to `next`. -/
def moveZero (next : Int) (m : ShardsMap) (shards : Shards) : ShardsMap × Shards :=
  match m.lookup 0 with
  | none => (m, shards)
  | some list =>
    ((m.insert next (index m next ++ list)).insert 0 [],
      fun shard ↦ if shard ∈ list then next else shards shard)

/-- The `for` loop of `balance`, for at most `fuel` rounds. -/
def balanceLoop (ords : Orders) : Nat → Nat → ShardsMap → Shards → Option Shards
  | 0, _, _, _ => none
  | fuel + 1, round, m, shards =>
    let min := getGidWithMinShards (ords (2 * round)) m
    let max := getGidWithMaxShards (ords (2 * round + 1)) m
    if ((index m min).length : Int) = (index m max).length - 1 ∨ (index m max).length ≤ 1 ∨
        min = max then
      some shards
    else
      match index m max with
      | [] => none
      | shard :: _ =>
        let m := m.insert min (index m min ++ [shard])
        let m := m.insert max ((index m max).drop 1)
        balanceLoop ords fuel (round + 1) m (Function.update shards shard min)

def balance (ords : Orders) (shards : Shards) (newGroups : Groups) : Option Shards :=
  let m := ((ords 0).visit newGroups.keys).foldl ensure (getShardsMap shards)
  if m.keys.card = 1 then some shards
  else
    let next := getNext (ords 1) m
    let moved := moveZero next m shards
    balanceLoop (fun k ↦ ords (k + 2)) (NShards * NShards + 1) 0 moved.1 moved.2

/-! ## The controller -/

inductive Op where
  | join (servers : Groups)
  | leave (gids : List Int)
  | move (shard gid : Int)
  | query (num : Int)

/-- An operation and the orders of the loops that execute it. -/
structure Command where
  op : Op
  ords : Orders

end ShardCtrler

/-- `configs`, which holds at least the initial configuration. -/
structure ShardCtrler where
  configs : List ShardCtrler.Config
  configs_ne_nil : configs ≠ []

namespace ShardCtrler

/-- What `StartServer` makes. -/
def start : ShardCtrler where
  configs := [{}]
  configs_ne_nil := List.cons_ne_nil _ _

def getLastConfig (sc : ShardCtrler) : Config :=
  sc.configs.getLast sc.configs_ne_nil

def append (sc : ShardCtrler) (config : Config) : ShardCtrler where
  configs := sc.configs ++ [config]
  configs_ne_nil := List.append_ne_nil_of_right_ne_nil _ (List.cons_ne_nil _ _)

/-- The body that `copyLastConfig` and `copyConfig` share. -/
def copy (order : RangeOrder Int) (source : Config) : Config where
  num := source.num
  shards := source.shards
  groups := (order.visit source.groups.keys).foldl
    (fun m key ↦ m.insert key (index source.groups key)) ∅

def copyLastConfig (sc : ShardCtrler) (order : RangeOrder Int) : Config :=
  copy order sc.getLastConfig

def copyConfig (sc : ShardCtrler) (order : RangeOrder Int) (num : Int) : Option Config :=
  if num < 0 then none else (sc.configs[num.toNat]?).map (copy order)

def dealJoin (sc : ShardCtrler) (ords : Orders) (servers : Groups) : Option ShardCtrler :=
  let config := sc.copyLastConfig (ords 0)
  match balance (fun k ↦ ords (k + 2)) config.shards servers with
  | none => none
  | some shards =>
    let groups := ((ords 1).visit servers.keys).foldl
      (fun m gid ↦ m.insert gid (index servers gid)) config.groups
    some (sc.append { num := sc.getLastConfig.num + 1, shards := shards, groups := groups })

def dealLeave (sc : ShardCtrler) (ords : Orders) (gids : List Int) : Option ShardCtrler :=
  let config := sc.copyLastConfig (ords 0)
  let groups := gids.foldl (fun m gid ↦ m.erase gid) config.groups
  let shards : Shards := fun shard ↦ if config.shards shard ∈ gids then 0 else config.shards shard
  match balance (fun k ↦ ords (k + 1)) shards groups with
  | none => none
  | some shards =>
    some (sc.append { num := sc.getLastConfig.num + 1, shards := shards, groups := groups })

def dealMove (sc : ShardCtrler) (ords : Orders) (shard gid : Int) : Option ShardCtrler :=
  let config := sc.copyLastConfig (ords 0)
  if h : 0 ≤ shard ∧ shard.toNat < NShards then
    some (sc.append
      { config with
        num := sc.getLastConfig.num + 1
        shards := Function.update config.shards ⟨shard.toNat, h.2⟩ gid })
  else none

def dealQuery (sc : ShardCtrler) (ords : Orders) (num : Int) : Option Config :=
  if num = -1 ∨ num ≥ sc.configs.length then some (sc.copyLastConfig (ords 0))
  else sc.copyConfig (ords 0) num

/-- The branch of `fetchApply` that executes an operation. -/
def execute (sc : ShardCtrler) (c : Command) : Option ShardCtrler :=
  match c.op with
  | .join servers => sc.dealJoin c.ords servers
  | .leave gids => sc.dealLeave c.ords gids
  | .move shard gid => sc.dealMove c.ords shard gid
  | .query num => (sc.dealQuery c.ords num).map fun _ ↦ sc

end ShardCtrler

end Lab6824
