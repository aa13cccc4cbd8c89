import Synapse.AuthChain.LinkMap
import Synapse.Lib.Outcome
import Synapse.Lib.Rounds

/-!
# Synapse.AuthChain.Tables — the tables of the chain cover index

* `Events`: what an event id stands for.  Events list distinct auth events, and the auth graph has no cycles.
* `Tables`: `event_auth_chains`, `event_auth_chain_links`, `event_auth_chain_to_calculate`, and the state events with
  their auth events.
* `getChainLinks`: `_get_chain_links` of `synapse/storage/databases/main/event_federation.py`.
-/

namespace Synapse.AuthChain

open Lib Chain Relation List

structure EventData where
  roomId : String
  type : String
  /-- only state events have one -/
  stateKey : Option String
  authEventIds : List String

structure Events where
  event : String → EventData
  nodup : ∀ id, (event id).authEventIds.Nodup
  acyclic : ∀ id, ¬ TransGen (Edge fun id => (event id).authEventIds) id id

namespace Events

variable (ev : Events) (id : String)

def auth : List String := (ev.event id).authEventIds

def isState : Bool := (ev.event id).stateKey.isSome

def types : String × String := ((ev.event id).type, (ev.event id).stateKey.getD "")

end Events

/-- The orders in which sets of events and of numbers are iterated. -/
structure Orders where
  strings : List String → List String
  strings_perm : ∀ l, (strings l).Perm l
  numbers : List ℕ → List ℕ
  numbers_perm : ∀ l, (numbers l).Perm l

def Orders.listed : Orders := ⟨id, fun _ => .refl _, id, fun _ => .refl _⟩

structure Tables where
  /-- `events` joined with `state_events`; `event_auth` has the auth events of each -/
  stateEvents : Finset String
  /-- `event_auth_chains` -/
  eventAuthChains : Finmap fun _ : String => Pos
  /-- `event_auth_chain_links` -/
  eventAuthChainLinks : List Link
  /-- the events of `event_auth_chain_to_calculate` -/
  eventAuthChainToCalculate : List String
  /-- the last value of `event_auth_chain_id` -/
  lastChainId : ℕ

namespace Tables

variable (t : Tables)

def empty : Tables := ⟨∅, ∅, [], [], 0⟩

def pos (id : String) : Option Pos := t.eventAuthChains.lookup id

def links : Set Link := {l | l ∈ t.eventAuthChainLinks}

/-- `SELECT auth_id FROM event_auth WHERE event_id = ?` -/
def selectAuth (ev : Events) (o : Orders) (id : String) : List String :=
  if id ∈ t.stateEvents then o.strings (ev.auth id) else []

/-- `SELECT MAX(sequence_number) FROM event_auth_chains WHERE chain_id = ? GROUP BY chain_id` -/
def maxSequence (chain : ℕ) : Option ℕ :=
  let rows := t.eventAuthChains.keys.filter fun id => (t.pos id).any fun p => p.1 = chain
  if rows = ∅ then none else some (rows.sup fun id => ((t.pos id).map Prod.snd).getD 0)

end Tables

/-! ## `_get_chain_links` -/

section ChainLinks

variable (links : List Link)

/-- The chains that a chain has links to. -/
def targetChains (chain : ℕ) : Finset ℕ := ((links.filter fun l => l.src.1 = chain).map fun l => l.target.1).toFinset

/-- The recursive part of the query: the chains with links among the given ones, and what they lead to. -/
def linkedChains (batch : List ℕ) : Finset ℕ :=
  let start := (batch.filter fun chain => links.any fun l => l.src.1 = chain).toFinset
  frontier (targetChains links) (links.length + 1) start start

def fetchLinks (batch : List ℕ) : List Link := links.filter fun l => l.src.1 ∈ linkedChains links batch

/-- `while chains_to_fetch: ...`; each pass takes at least one chain. -/
def getChainLinksLoop : ℕ → List ℕ → List (List Link)
  | 0, _ => []
  | _ + 1, [] => []
  | fuel + 1, chain :: chains =>
    let rows := fetchLinks links ((chain :: chains).take 1000)
    rows :: getChainLinksLoop fuel (((chain :: chains).drop 1000).filter fun c => ∀ l ∈ rows, l.src.1 ≠ c)

def getChainLinks (chainsToFetch : List ℕ) : List (List Link) :=
  getChainLinksLoop links chainsToFetch.length chainsToFetch

variable {links}

theorem mem_of_mem_getChainLinks {chains : List ℕ} {rows : List Link} (h : rows ∈ getChainLinks links chains) {l : Link}
    (hl : l ∈ rows) : l ∈ links := by
  unfold getChainLinks at h
  generalize chains.length = fuel at h
  fun_induction getChainLinksLoop links fuel chains with
  | case1 | case2 => exact absurd h not_mem_nil
  | case3 _ _ _ _ ih =>
    rcases mem_cons.mp h with rfl | h
    · exact (mem_filter.mp hl).1
    · exact ih h

end ChainLinks

end Synapse.AuthChain
