import Mathlib.Data.String.Basic
import Synapse.AuthChain.Tables
import Synapse.Lib.Greedy

/-!
# Synapse.AuthChain.Calculate — calculating the chain cover index of a batch of events

`calculate_chain_cover_index_for_events_txn`, `_calculate_chain_cover_index`, `_allocate_chain_ids` and
`_persist_chain_cover_index` of `synapse/storage/databases/main/events.py`.

* `gather`: the events to calculate positions for, with those that an earlier batch has left out.
* `discard`: events whose auth chain is not known are left for later.
* `allocateChainIds`: an event continues the chain of an auth event with its type and state key, or starts one.
* `calculateLinks`: links to the auth events that no other auth event leads to.
* `persistBatch`, `run`: what is written.
-/

namespace Synapse.AuthChain

open Lib Chain Greedy

abbrev Dict (β : Type) := AList fun _ : String => β

/-- `d[key]` -/
def getItem {β : Type} (d : Dict β) (key : String) : Except (Halt Exc) β :=
  (d.lookup key).elim (.error (.raised (.keyError (.str key)))) .ok

/-- `sorted_topologically(nodes, graph)` of `synapse/util/iterutils.py` -/
def sortedTopologically (nodes : List String) (graph : Dict (List String)) : List String :=
  kahn nodes fun id => (graph.lookup id).getD []

/-- What `_calculate_chain_cover_index` works on. -/
structure Calc where
  eventToTypes : Dict (String × String)
  eventToAuthChain : Dict (List String)
  /-- `events_to_calc_chain_id_for` -/
  eventsToCalc : List String
  chainMap : Dict Pos

section Gather

variable (ev : Events) (t : Tables) (o : Orders) (stateEvents : List String)

/-- An event to calculate a position for. -/
def Calc.add (c : Calc) (id : String) (authEvents : List String) : Calc :=
  { c with
    eventToTypes := c.eventToTypes.insert id (ev.types id)
    eventToAuthChain := c.eventToAuthChain.insert id authEvents
    eventsToCalc := c.eventsToCalc.insert id }

/-- The dicts that are passed to `_calculate_chain_cover_index`. -/
def startCalc : Calc :=
  stateEvents.foldl (fun c id => c.add ev id (ev.auth id)) ⟨∅, ∅, [], ∅⟩

/-- `auth_chain_to_calc_rows`: the rows for the rooms of the events. -/
def authChainToCalcRows : List String :=
  t.eventAuthChainToCalculate.filter fun id => (ev.event id).roomId ∈ stateEvents.map fun e => (ev.event e).roomId

def addPending (c : Calc) : Calc :=
  (authChainToCalcRows ev t stateEvents).foldl (fun c id => c.add ev id (t.selectAuth ev o id)) c

/-- `missing_auth_chains`, before the loop. -/
def missingAuthChains (c : Calc) : List String :=
  ((c.eventToAuthChain.entries.flatMap Sigma.snd).filter (· ∉ c.eventsToCalc)).dedup

def fetchAuthEvent (acc : Calc × List String) (id : String) : Calc × List String :=
  match t.pos id with
  | none =>
    -- the event was persisted out of band
    let c := acc.1.add ev id (t.selectAuth ev o id)
    (c, acc.2 ∪ (t.selectAuth ev o id).filter (· ∉ c.eventToTypes))
  | some p =>
    ({ acc.1 with
        eventToTypes := acc.1.eventToTypes.insert id (ev.types id)
        chainMap := acc.1.chainMap.insert id p }, acc.2)

/-- `while missing_auth_chains: ...` -/
def fetchMissing : ℕ → Calc → List String → Except (Halt Exc) Calc
  | _, c, [] => .ok c
  | 0, _, _ :: _ => .error .outOfFuel
  | fuel + 1, c, id :: missing =>
    let r := (o.strings ((id :: missing).filter (· ∈ t.stateEvents))).foldl (fetchAuthEvent ev t o) (c, [])
    fetchMissing fuel r.1 r.2

/-- What `_calculate_chain_cover_index` reads first. -/
def gather : Except (Halt Exc) Calc :=
  let c := addPending ev t o stateEvents (startCalc ev stateEvents)
  fetchMissing ev t o (t.stateEvents.card + 1) c (missingAuthChains c)

/-- The body of the loop that discards events: the events to calculate, and the rows of
`event_auth_chain_to_calculate`. -/
def discardEvent (c : Calc) (acc : List String × List String) (id : String) : List String × List String :=
  if ((c.eventToAuthChain.lookup id).getD []).any fun a => a ∉ c.chainMap ∧ a ∉ acc.1 then
    (acc.1.erase id, if id ∈ stateEvents then acc.2.insert id else acc.2)
  else acc

def discard (c : Calc) : List String × List String :=
  (sortedTopologically c.eventToAuthChain.keys c.eventToAuthChain).foldl (discardEvent stateEvents c)
    (c.eventsToCalc, t.eventAuthChainToCalculate)

end Gather

/-! ## `_allocate_chain_ids` -/

/-- A chain that exists, or a temporary object that stands for a new one. -/
inductive ChainRef where
  | existing (chainId : ℕ)
  | new (index : ℕ)
  deriving DecidableEq

structure Allocation where
  newChainTuples : Dict (ChainRef × ℕ)
  chainToMaxSeqNo : ChainRef → Option ℕ
  /-- how many temporary objects there are -/
  unallocated : ℕ

section Allocate

variable (t : Tables) (o : Orders) (c : Calc) (acc : Allocation) (id : String)

/-- The auth event whose chain an event may continue: the first one with the same type and state key. -/
def sameType : Option String :=
  ((c.eventToAuthChain.lookup id).getD []).find? fun a => c.eventToTypes.lookup id = c.eventToTypes.lookup a

def existingChains (nodes : List String) : List ℕ :=
  nodes.filterMap fun id => ((sameType c id).bind c.chainMap.lookup).map Prod.fst

/-- The chain ID and sequence number of an auth event. -/
def allocated (authId : String) : Except (Halt Exc) (ChainRef × ℕ) :=
  match acc.newChainTuples.lookup authId with
  | some r => .ok r
  | none => (getItem c.chainMap authId).map fun p => (.existing p.1, p.2)

/-- The next position of a chain, if it is not taken. -/
def nextPosition (r : ChainRef × ℕ) : Except (Halt Exc) (Option (ChainRef × ℕ)) :=
  match acc.chainToMaxSeqNo r.1 with
  | none => .error (.raised (.keyError .null))
  | some max => .ok (if max < r.2 + 1 then some (r.1, r.2 + 1) else none)

/-- `new_chain_tuple`, if a chain is continued. -/
def continued : Except (Halt Exc) (Option (ChainRef × ℕ)) :=
  match sameType c id with
  | none => .ok none
  | some a => allocated c acc a >>= nextPosition acc

/-- `new_chain_tuples[event_id] = new_chain_tuple` -/
def Allocation.put : Option (ChainRef × ℕ) → Allocation
  | some r => ⟨acc.newChainTuples.insert id r, Function.update acc.chainToMaxSeqNo r.1 (some r.2), acc.unallocated⟩
  | none => ⟨acc.newChainTuples.insert id (.new acc.unallocated, 1),
      Function.update acc.chainToMaxSeqNo (.new acc.unallocated) (some 1), acc.unallocated + 1⟩

def allocateEvent : Except (Halt Exc) Allocation := (continued c acc id).map (acc.put id)

/-- `chain_to_max_seq_no`, before the loop. -/
def maxSeqNos (chains : List ℕ) : ChainRef → Option ℕ
  | .existing chain => if chain ∈ chains then t.maxSequence chain else none
  | .new _ => none

/-- `chain_id_to_allocated_map[chain_id]` -/
def allocatedId (existing newlyAllocated : List ℕ) : ChainRef → Except (Halt Exc) ℕ
  | .existing chain => if chain ∈ existing then .ok chain else .error (.raised (.keyError .null))
  | .new i => newlyAllocated[i]?.elim (.error (.raised (.keyError .null))) .ok

/-- `{event_id: (chain_id_to_allocated_map[chain_id], seq) for ...}` -/
def allocatedPositions (existing newlyAllocated : List ℕ) (newChainTuples : Dict (ChainRef × ℕ)) :
    Except (Halt Exc) (Dict Pos) :=
  newChainTuples.entries.foldlM (fun (d : Dict Pos) r => do
    let chain ← allocatedId existing newlyAllocated r.2.1
    pure (d.insert r.1 (chain, r.2.2))) ∅

/-- `_allocate_chain_ids(...)`: the positions of the events, and the last value of the sequence. -/
def allocateChainIds (eventsToCalc : List String) : Except (Halt Exc) (Dict Pos × ℕ) := do
  let nodes := sortedTopologically eventsToCalc c.eventToAuthChain
  let existing := existingChains c nodes
  let acc ← nodes.foldlM (allocateEvent c) ⟨∅, maxSeqNos t existing, 0⟩
  let newlyAllocated := o.numbers ((List.range acc.unallocated).map fun i => t.lastChainId + 1 + i)
  let positions ← allocatedPositions existing newlyAllocated acc.newChainTuples
  pure (positions, t.lastChainId + acc.unallocated)

end Allocate

/-! ## Links -/

/-- `itertools.permutations(l, r=2)` -/
def permutations {β : Type} (l : List β) : List (β × β) :=
  l.zipIdx.flatMap fun a => (l.zipIdx.filter fun b => b.2 ≠ a.2).map fun b => (a.1, b.1)

section Links

variable (o : Orders) (authChain : Dict (List String)) (chainMap : Dict Pos)

/-- `reduction`: the auth events on other chains that no other auth event leads to. -/
def reduction (m : LinkMap) (p : Pos) (auth : List (String × Pos)) : List String :=
  (permutations auth).foldl
    (fun reduction pair => if m.existsPathFrom pair.1.2 pair.2.2 then reduction.filter (· ≠ pair.2.1) else reduction)
    ((auth.filter fun a => a.2.1 ≠ p.1).map Prod.fst)

/-- Step 2 for one auth event; the links are in the order in which they are appended. -/
def addNewLink (p : Pos) (acc : LinkMap × List Link) (authId : String) : Except (Halt Exc) (LinkMap × List Link) := do
  let q ← getItem chainMap authId
  let (_, m) ← (acc.1.addLink p q true).mapError .raised
  pure (m, acc.2 ++ [⟨p, q⟩])

/-- The body of the loop over the new events. -/
def linkEvent (acc : LinkMap × List Link) (id : String) : Except (Halt Exc) (LinkMap × List Link) := do
  let p ← getItem chainMap id
  let auth ← ((authChain.lookup id).getD []).mapM fun a => (getItem chainMap a).map fun q => (a, q)
  (o.strings (reduction acc.1 p auth)).foldlM (addNewLink chainMap p) acc

def loadLinks (rows : List Link) : Except (Halt Exc) LinkMap :=
  rows.foldlM (fun m l => ((m.addLink l.src l.target false).mapError .raised).map Prod.snd) []

def calculateLinks (links : List Link) (eventsToCalc : List String) : Except (Halt Exc) (List Link) := do
  let m ← loadLinks (getChainLinks links (o.numbers (chainMap.entries.map fun e => e.2.1).dedup)).flatten
  let r ← (sortedTopologically eventsToCalc authChain).foldlM (linkEvent o authChain chainMap) (m, [])
  pure r.2

end Links

/-! ## Batches -/

/-- `to_return` with what `_calculate_chain_cover_index` has written. -/
structure NewLinks where
  positions : Dict Pos
  links : List Link
  toCalculate : List String
  lastChainId : ℕ

section Batches

variable (ev : Events) (t : Tables) (o : Orders)

def calculateChainCoverIndex (stateEvents : List String) : Except (Halt Exc) NewLinks := do
  let c ← gather ev t o stateEvents
  let (eventsToCalc, toCalculate) := discard t stateEvents c
  if eventsToCalc = [] then pure ⟨∅, [], toCalculate, t.lastChainId⟩
  else do
    let (positions, lastChainId) ← allocateChainIds t o c eventsToCalc
    let chainMap := positions.entries.foldl (fun (d : Dict Pos) r => d.insert r.1 r.2) c.chainMap
    let links ← calculateLinks o c.eventToAuthChain chainMap t.eventAuthChainLinks eventsToCalc
    pure ⟨positions, links, toCalculate, lastChainId⟩

/-- The state events of a batch, without duplicates. -/
def stateEventsOf (events : List String) : List String := (events.filter ev.isState).dedup

/-- `calculate_chain_cover_index_for_events(room_id, events)` -/
def calculateForEvents (hasAuthChainIndex : Bool) (events : List String) : Except (Halt Exc) NewLinks :=
  let stateEvents := (stateEventsOf ev events).filter fun id => t.pos id = none
  if hasAuthChainIndex = false ∨ stateEvents = [] then
    .ok ⟨∅, [], t.eventAuthChainToCalculate, t.lastChainId⟩
  else calculateChainCoverIndex ev t o stateEvents

/-- The events are persisted, with their auth events and the new positions and links (`_persist_chain_cover_index`). -/
def persist (events : List String) (new : NewLinks) : Tables where
  stateEvents := t.stateEvents ∪ (stateEventsOf ev events).toFinset
  eventAuthChains := new.positions.entries.foldl (fun d r => d.insert r.1 r.2) t.eventAuthChains
  eventAuthChainLinks := t.eventAuthChainLinks ++ new.links
  eventAuthChainToCalculate := new.toCalculate.filter (· ∉ new.positions.keys)
  lastChainId := new.lastChainId

end Batches

/-- A batch of events, and whether the room has an index. -/
structure Batch where
  events : List String
  hasAuthChainIndex : Bool
  orders : Orders

def persistBatch (ev : Events) (t : Tables) (b : Batch) : Except (Halt Exc) Tables :=
  (calculateForEvents ev t b.orders b.hasAuthChainIndex b.events).map (persist ev t b.events)

def run (ev : Events) (t : Tables) (batches : List Batch) : Except (Halt Exc) Tables := batches.foldlM (persistBatch ev) t

end Synapse.AuthChain
