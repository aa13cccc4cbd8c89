import Synapse.AuthChain.Tables
import Synapse.Lib.Dict

/-!
# Synapse.AuthChain.Difference — auth chain differences with the chain cover index

`_get_auth_chain_difference_using_cover_index_txn`, `_fixup_auth_chain_difference_sets` and `_materialize` of
`synapse/storage/databases/main/event_federation.py`.

* `fetchChainInfo`: the positions of events.
* `fixupAuthChainDifferenceSets`: the events without a position are replaced by those that they lead to.
* `materialize`: how far up the chains are reached along links.
* `chainDifference`: the events between the least and the greatest position that the sets reach.
* `getAuthChainDifference`: the whole.
-/

namespace Synapse.AuthChain

open Lib Chain

inductive DifferenceError where
  /-- `_NoChainCoverIndex` -/
  | noChainCoverIndex
  | keyError (id : String)
  | indexError

/-- A row of the query for the events that have no position yet. -/
structure PendingRow where
  eventId : String
  authId : Option String
  authIdHasChain : Bool

/-- The orders in which sets are iterated and in which rows come back. -/
structure DifferenceOrders where
  strings : SetOrder String
  numbers : SetOrder ℕ
  rows : List PendingRow → List PendingRow
  rows_perm : ∀ l, (rows l).Perm l
  links : List Link → List Link
  links_perm : ∀ l, (links l).Perm l

/-- `sets[0].union(*sets[1:])` -/
def unionAll (first : Finset String) (rest : List (Finset String)) : Finset String := rest.foldl (· ∪ ·) first

/-- `sets[0].intersection(*sets[1:])` -/
def interAll (first : Finset String) (rest : List (Finset String)) : Finset String := rest.foldl (· ∩ ·) first

/-! ## Positions -/

/-- `chain_info`, `seen_chains`, and `chain_to_event` by chain and sequence number. -/
structure ChainInfo where
  chainInfo : Finmap fun _ : String => Pos
  seenChains : Finset ℕ
  chainToEvent : Finmap fun _ : Pos => String

def ChainInfo.empty : ChainInfo := ⟨∅, ∅, ∅⟩

def ChainInfo.add (info : ChainInfo) (id : String) (p : Pos) : ChainInfo :=
  ⟨info.chainInfo.insert id p, insert p.1 info.seenChains, info.chainToEvent.insert p id⟩

section Algorithm

variable (ev : Events) (t : Tables) (o : DifferenceOrders) (roomId : String) (info : ChainInfo)

/-- The row of an event in `event_auth_chains`, if there is one. -/
def fetchPosition (id : String) : ChainInfo :=
  match t.pos id with
  | some p => info.add id p
  | none => info

def fetchChainInfo (eventsToFetch : Finset String) : ChainInfo :=
  (batchIter 1000 (o.strings.iter eventsToFetch)).foldl (fun info batch => batch.foldl (fetchPosition t) info) info

/-! ## Events without a position -/

/-- The auth events of an event in `event_auth`. -/
def Tables.eventAuth (id : String) : List String := if id ∈ t.stateEvents then ev.auth id else []

/-- The events of the room in `event_auth_chain_to_calculate`. -/
def Tables.pendingIn : List String :=
  t.eventAuthChainToCalculate.filter fun id => (ev.event id).roomId = roomId

/-- `event_auth_chain_to_calculate`, joined with `event_auth` and `event_auth_chains`. -/
def selectPending : List PendingRow :=
  (t.pendingIn ev roomId).flatMap fun id =>
    if t.eventAuth ev id = [] then [⟨id, none, false⟩]
    else (t.eventAuth ev id).map fun authId => ⟨id, some authId, (t.pos authId).isSome⟩

/-- `event_to_auth_ids`, and `events_that_have_chain_index` -/
structure PendingInfo where
  eventToAuthIds : Finmap fun _ : String => Finset String
  eventsThatHaveChainIndex : Finset String

def PendingInfo.add (info : PendingInfo) (row : PendingRow) : PendingInfo :=
  let s := (info.eventToAuthIds.lookup row.eventId).getD ∅
  match row.authId with
  | none => { info with eventToAuthIds := info.eventToAuthIds.insert row.eventId s }
  | some authId =>
    { eventToAuthIds := info.eventToAuthIds.insert row.eventId (insert authId s)
      eventsThatHaveChainIndex :=
        if row.authIdHasChain then insert authId info.eventsThatHaveChainIndex else info.eventsThatHaveChainIndex }

/-- The auth events that an event leads to, up to events that are not pending.  Every id that is added is an auth event of
a pending one, so the loop ends within their number. -/
def partialAuthChain (info : PendingInfo) (authIds : Finset String) : Finset String :=
  let all := info.eventToAuthIds.keys.biUnion fun id => (info.eventToAuthIds.lookup id).getD ∅
  popSearch o.strings.iter (fun id => (info.eventToAuthIds.lookup id).getD ∅) all.card authIds ∅

/-- `event_id_to_partial_auth_chain`, in the order of its items. -/
def partialAuthChains (info : PendingInfo) (stateSets : List (Finset String)) : List (String × Finset String) :=
  ((o.strings.iter info.eventToAuthIds.keys).filter fun id => stateSets.any fun s => id ∈ s).map fun id =>
    (id, partialAuthChain o info ((info.eventToAuthIds.lookup id).getD ∅))

/-- A pass of the inner loop: the event leaves the state set, and what it leads to is put in its place. -/
def replaceUnindexed (indexed : Finset String) (acc : Finset String × Finset String) (e : String × Finset String) :
    Finset String × Finset String :=
  if e.1 ∉ acc.1 then acc
  else ((acc.1.erase e.1 \ e.2) ∪ e.2.filter (· ∈ indexed), insert e.1 acc.2 ∪ e.2.filter (· ∉ indexed))

/-- `_fixup_auth_chain_difference_sets`: the new state sets, and the difference among the events without a position. -/
def fixupAuthChainDifferenceSets (first : Finset String) (rest : List (Finset String))
    (eventsMissingChainInfo eventsThatHaveChainIndex : Finset String) :
    Except DifferenceError ((Finset String × List (Finset String)) × Finset String) :=
  let info := (o.rows (selectPending ev t roomId)).foldl PendingInfo.add ⟨∅, eventsThatHaveChainIndex⟩
  if eventsMissingChainInfo \ info.eventToAuthIds.keys ≠ ∅ then .error .noChainCoverIndex
  else
    let chains := partialAuthChains o info (first :: rest)
    let replace := fun s => chains.foldl (replaceUnindexed info.eventsThatHaveChainIndex) (s, ∅)
    let unindexed := rest.map fun s => (replace s).2
    .ok (((replace first).1, rest.map fun s => (replace s).1),
      unionAll (replace first).2 unindexed \ interAll (replace first).2 unindexed)

/-! ## Chains -/

/-- A dict from chains to sequence numbers. -/
abbrev Chains := Finmap fun _ : ℕ => ℕ

/-- `chains.get(chain_id, 0)` -/
def Chains.get (chains : Chains) (chain : ℕ) : ℕ := (chains.lookup chain).getD 0

/-- `chains[chain_id] = max(seq_no, chains.get(chain_id, 0))`, for an event of the state set -/
def addToChains (chains : Chains) (id : String) : Except DifferenceError Chains :=
  match info.chainInfo.lookup id with
  | none => .error (.keyError id)
  | some p => .ok (chains.insert p.1 (max p.2 (chains.get p.1)))

def chainsOf (stateSet : Finset String) : Except DifferenceError Chains :=
  (o.strings.iter stateSet).foldlM (addToChains info) ∅

/-- A link of the chain at the top of the stack, which is at sequence number `s`. -/
def visitLink (s : ℕ) (acc : List Pos × Chains) (l : Link) : List Pos × Chains :=
  if s < l.src.2 then acc
  else if acc.2.get l.target.1 < l.target.2 then (l.target :: acc.1, acc.2.insert l.target.1 l.target.2)
  else acc

def materializeLoop (links : List Link) : ℕ → List Pos → Chains → Chains
  | 0, _, materialized => materialized
  | _ + 1, [], materialized => materialized
  | fuel + 1, p :: stack, materialized =>
    let acc := (links.filter fun l => l.src.1 = p.1).foldl (visitLink p.2) (stack, materialized)
    materializeLoop links fuel acc.1 acc.2

/-- `_materialize`.  A link is followed once at most. -/
def materialize (p : Pos) (links : List Link) (materialized : Chains) : Chains :=
  materializeLoop links (links.length + 1) [p] materialized

/-- `if chain_id not in chains: continue`, `_materialize(chain_id, chains[chain_id], links, chains)` -/
def followChain (links : List Link) (chains : Chains) (chain : ℕ) : Chains :=
  match chains.lookup chain with
  | none => chains
  | some s => materialize (chain, s) links chains

/-- The pass over the chains of `links`, for one state set. -/
def followLinks (links : List Link) (chains : Chains) : Chains :=
  (o.numbers.iter (links.map fun l => l.src.1).toFinset).foldl (followChain links) chains

/-- `for links in self._get_chain_links(txn, set(seen_chains))`, with `set_to_chain` and `seen_chains` -/
def followAll (first : Chains) (rest : List Chains) (seenChains : Finset ℕ) : (Chains × List Chains) × Finset ℕ :=
  (getChainLinks t.eventAuthChainLinks (o.numbers.iter seenChains)).foldl (fun acc rows =>
    let links := o.links rows
    let first := followLinks o links acc.1.1
    let rest := acc.1.2.map (followLinks o links)
    ((first, rest), rest.foldl (fun seen chains => seen ∪ chains.keys) (acc.2 ∪ first.keys)))
    ((first, rest), seenChains)

/-! ## Gaps -/

/-- The events of a gap that are known; `false` if one is not. -/
def fillGap (info : ChainInfo) (chain : ℕ) : List ℕ → Finset String → Finset String × Bool
  | [], result => (result, true)
  | seq :: seqs, result =>
    match info.chainToEvent.lookup (chain, seq) with
    | some id => if id = "" then (result, false) else fillGap info chain seqs (insert id result)
    | none => (result, false)

/-- `SELECT event_id FROM event_auth_chains WHERE chain_id = ? AND ? < sequence_number AND sequence_number <= ?` -/
def selectGap (chain min max : ℕ) : Finset String :=
  t.eventAuthChains.keys.filter fun id => (t.pos id).any fun p => p.1 = chain ∧ min < p.2 ∧ p.2 ≤ max

/-- A chain's gap: filled from what is known, or left to the database. -/
def addGap (first : Chains) (rest : List Chains) (acc : Finset String × List (ℕ × ℕ × ℕ)) (chain : ℕ) :
    Finset String × List (ℕ × ℕ × ℕ) :=
  let minSeqNo := (rest.map fun chains => chains.get chain).foldl min (first.get chain)
  let maxSeqNo := (rest.map fun chains => chains.get chain).foldl max (first.get chain)
  if minSeqNo < maxSeqNo then
    let (result, filled) := fillGap info chain (List.range' (minSeqNo + 1) (maxSeqNo - minSeqNo)) acc.1
    (result, if filled then acc.2 else acc.2 ++ [(chain, minSeqNo, maxSeqNo)])
  else acc

/-- The events between what all sets reach and what any set reaches.  With one query or with one for each gap, the rows of
all gaps are added. -/
def chainDifference (first : Chains) (rest : List Chains) (seenChains : Finset ℕ)
    (result : Finset String) : Finset String :=
  let acc := (o.numbers.iter seenChains).foldl (addGap info first rest) (result, [])
  acc.2.foldl (fun result gap => result ∪ selectGap t gap.1 gap.2.1 gap.2.2) acc.1

/-! ## The difference -/

/-- The state sets and what is known of their events, after the events without a position have been replaced. -/
def prepare (first : Finset String) (rest : List (Finset String)) :
    Except DifferenceError ((Finset String × List (Finset String)) × Finset String × ChainInfo) := do
  let initialEvents := unionAll first rest
  let info := fetchChainInfo t o .empty initialEvents
  let missing := initialEvents.filter (· ∉ info.chainInfo)
  if missing = ∅ then pure ((first, rest), ∅, info)
  else do
    let (sets, result) ← fixupAuthChainDifferenceSets ev t o roomId first rest missing info.chainInfo.keys
    let newEvents := (unionAll sets.1 sets.2).filter (· ∉ initialEvents)
    pure (sets, result, fetchChainInfo t o info newEvents)

/-- `_get_auth_chain_difference_using_cover_index_txn` -/
def getAuthChainDifference : List (Finset String) → Except DifferenceError (Finset String)
  | [] => .error .indexError
  | first :: rest => do
    let (sets, result, info) ← prepare ev t o roomId first rest
    let firstChains ← chainsOf o info sets.1
    let restChains ← sets.2.mapM (chainsOf o info)
    let (chains, seenChains) := followAll t o firstChains restChains info.seenChains
    pure (chainDifference t o info chains.1 chains.2 seenChains result)

end Algorithm

end Synapse.AuthChain
