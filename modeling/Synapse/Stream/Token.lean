import Mathlib.Data.Prod.Lex
import Synapse.Lib.Paging
import Synapse.Json

/-!
# Synapse.Stream.Token — positions in the events stream, and the SQL bounds made from them

`RoomStreamToken` of `synapse/types/__init__.py` and the helpers of `synapse/storage/databases/main/stream.py`.

* `RoomStreamToken`: a live token, with or without a position per writer, or a historical one.
* `generatePaginationBounds`, `generatePaginationWhereClause`: the rows a page selects.
* `filterResults`, `filterResultsByStream`: the filter over the selected rows.
* `generateNextToken`: the token of the next page.
* `EventsTable`: the columns of `events` that the queries read.
* `bailsEarly`: the comparison of the two tokens before a query.  It looks at the stream parts only.
* `whereClause_historical`: between historical tokens the clause and the filter say the same.
-/

namespace Synapse.Stream

open Lib List Option

/-! ## Tokens -/

/-- `RoomStreamToken`, with what `__attrs_post_init__` enforces.  It tests `topological` by truth, so zero may come
with an `instance_map`. -/
structure RoomStreamToken where
  stream : ℤ
  /-- The items of the dict. -/
  instanceMap : List (String × ℤ)
  topological : Option ℤ
  nodupKeys : (instanceMap.map Prod.fst).Nodup
  above : ∀ item ∈ instanceMap, stream < item.2
  exclusive : instanceMap = [] ∨ topological = none ∨ topological = some 0

namespace RoomStreamToken

/-- The token `s{stream}`. -/
def live (stream : ℤ) : RoomStreamToken := ⟨stream, [], none, by simp, by simp, .inl rfl⟩

/-- The token `t{topological}-{stream}`. -/
def historical (topological stream : ℤ) : RoomStreamToken := ⟨stream, [], some topological, by simp, by simp, .inl rfl⟩

variable (token : RoomStreamToken)

/-- `instance_map.get(instance, self.stream)`; with the assertion that the token is live, `get_stream_pos_for_instance` -/
def posFor (instanceName : String) : ℤ := (token.instanceMap.lookup instanceName).getD token.stream

def getMaxStreamPos : ℤ :=
  match token.instanceMap with
  | [] => token.stream
  | item :: items => items.foldl (fun m i => max m i.2) item.2

def isBeforeOrEq (other : RoomStreamToken) : Bool :=
  token.stream ≤ other.stream ∧
    ∀ instanceName ∈ token.instanceMap.map Prod.fst ++ other.instanceMap.map Prod.fst,
      token.posFor instanceName ≤ other.posFor instanceName

variable {token}

theorem mem_of_lookup {instanceName : String} {pos : ℤ} (h : token.instanceMap.lookup instanceName = some pos) :
    (instanceName, pos) ∈ token.instanceMap := by
  obtain ⟨l₁, l₂, heq, -⟩ := lookup_eq_some_iff.mp h
  rw [heq]
  simp

theorem posFor_eq (token : RoomStreamToken) (instanceName : String) :
    token.posFor instanceName = token.stream ∨ (instanceName, token.posFor instanceName) ∈ token.instanceMap := by
  unfold posFor
  cases h : token.instanceMap.lookup instanceName with
  | none => exact .inl rfl
  | some pos => exact .inr (mem_of_lookup h)

theorem stream_le_posFor (token : RoomStreamToken) (instanceName : String) :
    token.stream ≤ token.posFor instanceName := by
  rcases token.posFor_eq instanceName with h | h
  · exact h.ge
  · exact (token.above _ h).le

theorem posFor_le_max (token : RoomStreamToken) (instanceName : String) :
    token.posFor instanceName ≤ token.getMaxStreamPos := by
  have hmax : (∀ item ∈ token.instanceMap, item.2 ≤ token.getMaxStreamPos) ∧ token.stream ≤ token.getMaxStreamPos := by
    unfold getMaxStreamPos
    cases hmap : token.instanceMap with
    | nil => simp
    | cons x xs =>
      have hle : ∀ p, p ≤ xs.foldl (fun m i => max m i.2) x.2 ↔ p ≤ x.2 ∨ ∃ item ∈ xs, p ≤ item.2 := fun p =>
        foldl_iff (fun _ _ => le_max_iff) xs x.2
      refine ⟨fun item hitem => (hle _).mpr ?_, (hle _).mpr (.inl (token.above x (by simp [hmap])).le)⟩
      rcases mem_cons.mp hitem with rfl | hitem
      · exact .inl le_rfl
      · exact .inr ⟨item, hitem, le_rfl⟩
  rcases token.posFor_eq instanceName with h | h
  · exact h.trans_le hmax.2
  · exact hmax.1 _ h

theorem posFor_le_of_isBeforeOrEq {other : RoomStreamToken} (h : token.isBeforeOrEq other) (instanceName : String) :
    token.posFor instanceName ≤ other.posFor instanceName := by
  obtain ⟨hstream, hinst⟩ := of_decide_eq_true h
  by_cases hmem : instanceName ∈ token.instanceMap.map Prod.fst ++ other.instanceMap.map Prod.fst
  · exact hinst instanceName hmem
  have hself : token.posFor instanceName = token.stream := by
    refine (token.posFor_eq instanceName).resolve_right fun hm => hmem ?_
    exact mem_append_left _ (List.mem_map_of_mem hm)
  exact hself.trans_le (hstream.trans (other.stream_le_posFor instanceName))

end RoomStreamToken

/-! ## Bounds -/

/-- The operators of `_make_generic_sql_bound`. -/
inductive Bound where
  | gt
  | lt
  | ge
  | le
  deriving DecidableEq, Repr

namespace Bound

def holds : Bound → ℤ → ℤ → Prop
  | gt, a, b => a > b
  | lt, a, b => a < b
  | ge, a, b => a ≥ b
  | le, a, b => a ≤ b

/-- `bound[0]` -/
def strict : Bound → Bound
  | gt => gt
  | lt => lt
  | ge => gt
  | le => lt

def rowHolds : Bound → ℤ ×ₗ ℤ → ℤ ×ₗ ℤ → Prop
  | gt, a, b => a > b
  | lt, a, b => a < b
  | ge, a, b => a ≥ b
  | le, a, b => a ≤ b

instance (bound : Bound) (a b : ℤ) : Decidable (bound.holds a b) := by
  unfold holds
  split <;> infer_instance

instance (bound : Bound) (a b : ℤ ×ₗ ℤ) : Decidable (bound.rowHolds a b) := by
  unfold rowHolds
  split <;> infer_instance

end Bound

inductive Engine where
  | postgres
  | sqlite
  deriving DecidableEq, Repr

/-- `_make_generic_sql_bound`: the condition on the two columns. -/
def makeGenericSqlBound (bound : Bound) (values : Option ℤ × ℤ) (engine : Engine) (col₁ col₂ : ℤ) : Bool :=
  match values.1 with
  | none => bound.holds values.2 col₂
  | some val₁ =>
    match engine with
    | .postgres => bound.rowHolds (toLex (val₁, values.2)) (toLex (col₁, col₂))
    | .sqlite => bound.strict.holds val₁ col₁ ∨ (val₁ = col₁ ∧ bound.holds values.2 col₂)

def generatePaginationWhereClause (dir : Direction) (fromToken toToken : Option (Option ℤ × ℤ)) (engine : Engine)
    (col₁ col₂ : ℤ) : Bool :=
  (fromToken.all fun values =>
    makeGenericSqlBound (if dir = .backwards then .ge else .lt) values engine col₁ col₂) &&
  (toToken.all fun values =>
    makeGenericSqlBound (if dir = .backwards then .lt else .ge) values engine col₁ col₂)

/-- The bound of a token; `ahead` says whether a live one is taken at its maximum position. -/
def boundOf (token : RoomStreamToken) (ahead : Bool) : Option ℤ × ℤ :=
  match token.topological with
  | some topological => (some topological, token.stream)
  | none => (none, if ahead then token.getMaxStreamPos else token.stream)

/-- `generate_pagination_bounds`, without the order, which is the direction's. -/
def generatePaginationBounds (dir : Direction) (fromToken toToken : Option RoomStreamToken) :
    Option (Option ℤ × ℤ) × Option (Option ℤ × ℤ) :=
  (fromToken.map fun token => boundOf token (dir = .backwards),
    toToken.map fun token => boundOf token (dir ≠ .backwards))

def generateNextToken (dir : Direction) (lastTopoOrdering : Option ℤ) (lastStreamOrdering : ℤ) : RoomStreamToken where
  stream := match dir with
    | .backwards => lastStreamOrdering - 1
    | .forwards => lastStreamOrdering
  instanceMap := []
  topological := lastTopoOrdering
  nodupKeys := by simp
  above := by simp
  exclusive := .inl rfl

/-! ## The filter over the selected rows -/

def filterResults (lowerToken upperToken : Option RoomStreamToken) (instanceName : Option String)
    (topologicalOrdering streamOrdering : ℤ) : Bool :=
  let instanceName := instanceName.getD "master"
  (lowerToken.all fun token =>
    match token.topological with
    | some topological =>
      ! decide (toLex (topologicalOrdering, streamOrdering) ≤ toLex (topological, token.stream))
    | none => ! decide (streamOrdering ≤ token.posFor instanceName)) &&
  (upperToken.all fun token =>
    match token.topological with
    | some topological =>
      ! decide (toLex (topological, token.stream) < toLex (topologicalOrdering, streamOrdering))
    | none => ! decide (token.posFor instanceName < streamOrdering))

/-- `_filter_results_by_stream`, for live tokens. -/
def filterResultsByStream (lowerToken upperToken : Option RoomStreamToken) (instanceName : Option String)
    (streamOrdering : ℤ) : Bool :=
  let instanceName := instanceName.getD "master"
  (lowerToken.all fun token => ! decide (streamOrdering ≤ token.posFor instanceName)) &&
  (upperToken.all fun token => ! decide (token.posFor instanceName < streamOrdering))

/-! ## The table -/

/-- A row of `events`. -/
structure Row where
  eventId : String
  roomId : String
  instanceName : Option String
  topologicalOrdering : ℤ
  streamOrdering : ℤ
  outlier : Bool
  deriving DecidableEq, Repr

/-- `(topological_ordering, stream_ordering)` -/
def Row.place (r : Row) : ℤ ×ₗ ℤ := toLex (r.topologicalOrdering, r.streamOrdering)

/-- `events`, with the unique index of `stream_ordering`. -/
structure EventsTable where
  rows : List Row
  distinct : (rows.map Row.streamOrdering).Nodup

/-- The bail-out before the query: the end token is already reached. -/
def bailsEarly (dir : Direction) (fromToken : RoomStreamToken) : Option RoomStreamToken → Bool
  | none => false
  | some toToken =>
    match dir with
    | .forwards => toToken.isBeforeOrEq fromToken
    | .backwards => fromToken.isBeforeOrEq toToken

/-! ## What the bounds and the filters say -/

section Meaning

variable {dir : Direction}

theorem rowHolds_iff (bound : Bound) (val₁ val₂ col₁ col₂ : ℤ) :
    bound.rowHolds (toLex (val₁, val₂)) (toLex (col₁, col₂)) ↔
      bound.strict.holds val₁ col₁ ∨ (val₁ = col₁ ∧ bound.holds val₂ col₂) := by
  cases bound <;>
    simp only [Bound.rowHolds, Bound.strict, Bound.holds, Prod.Lex.toLex_lt_toLex,
      Prod.Lex.toLex_le_toLex, eq_comm]

theorem sqlBound_some (bound : Bound) (val₁ val₂ : ℤ) (engine : Engine) (col₁ col₂ : ℤ) :
    makeGenericSqlBound bound (some val₁, val₂) engine col₁ col₂ =
      decide (bound.rowHolds (toLex (val₁, val₂)) (toLex (col₁, col₂))) := by
  cases engine
  · rfl
  · simp only [makeGenericSqlBound, rowHolds_iff]

/-- The place of a historical token among the rows. -/
def RoomStreamToken.place (token : RoomStreamToken) : ℤ ×ₗ ℤ := toLex (token.topological.getD 0, token.stream)

theorem boundOf_historical {token : RoomStreamToken} (h : token.topological.isSome) (ahead : Bool) :
    boundOf token ahead = (some (token.topological.getD 0), token.stream) := by
  obtain ⟨topological, ht⟩ := isSome_iff_exists.mp h
  simp [boundOf, ht]

section

variable {fromToken toToken : RoomStreamToken} (hfrom : fromToken.topological.isSome)
  (hto : toToken.topological.isSome)
include hfrom hto

theorem whereClause_historical (engine : Engine) (col₁ col₂ : ℤ) :
    generatePaginationWhereClause dir (generatePaginationBounds dir (some fromToken) (some toToken)).1
        (generatePaginationBounds dir (some fromToken) (some toToken)).2 engine col₁ col₂ =
      decide (dir.pastStart fromToken.place (toLex (col₁, col₂)) ∧ dir.upToEnd toToken.place (toLex (col₁, col₂))) := by
  simp only [generatePaginationWhereClause, generatePaginationBounds, map_some, all_some,
    boundOf_historical hfrom, boundOf_historical hto, sqlBound_some, Bool.decide_and]
  cases dir <;> rfl

/-- Between historical tokens, the filter keeps all that the clause selects. -/
theorem filterResults_historical (instanceName : Option String) (col₁ col₂ : ℤ) :
    filterResults (if dir = .backwards then some toToken else some fromToken)
        (if dir = .backwards then some fromToken else some toToken) instanceName col₁ col₂ =
      decide (dir.pastStart fromToken.place (toLex (col₁, col₂)) ∧ dir.upToEnd toToken.place (toLex (col₁, col₂))) := by
  obtain ⟨a, ha⟩ := isSome_iff_exists.mp hfrom
  obtain ⟨b, hb⟩ := isSome_iff_exists.mp hto
  rw [Bool.eq_iff_iff]
  cases dir <;>
    simp [filterResults, ha, hb, Direction.pastStart, Direction.upToEnd, RoomStreamToken.place, and_comm]

end

section

variable {lowerToken upperToken : Option RoomStreamToken} {instanceName : Option String} {col₁ col₂ : ℤ}
  (h : filterResults lowerToken upperToken instanceName col₁ col₂ = true) (engine : Engine)
include h

/-- The clause takes a token for all writers at once: the lower one at its least position, the upper one at its greatest. -/
theorem sqlBound_of_filterResults :
    (lowerToken.all fun token => makeGenericSqlBound .lt (boundOf token false) engine col₁ col₂) = true ∧
      (upperToken.all fun token => makeGenericSqlBound .ge (boundOf token true) engine col₁ col₂) = true := by
  obtain ⟨hlower, hupper⟩ := Bool.and_eq_true_iff.mp h
  constructor
  · rcases lowerToken with _ | token
    · rfl
    rcases ht : token.topological with _ | topological
    · simp only [all_some, ht, Bool.not_eq_true', decide_eq_false_iff_not, not_le] at hlower
      simp only [all_some, boundOf, ht, makeGenericSqlBound, decide_eq_true_eq]
      exact (token.stream_le_posFor _).trans_lt hlower
    · simp only [all_some, boundOf, ht, sqlBound_some, decide_eq_true_eq]
      simpa [ht, Bound.rowHolds] using hlower
  · rcases upperToken with _ | token
    · rfl
    rcases ht : token.topological with _ | topological
    · simp only [all_some, ht, Bool.not_eq_true', decide_eq_false_iff_not, not_lt] at hupper
      simp only [all_some, boundOf, ht, makeGenericSqlBound, decide_eq_true_eq]
      exact hupper.trans (token.posFor_le_max _)
    · simp only [all_some, boundOf, ht, sqlBound_some]
      simpa [ht, Bound.rowHolds] using hupper

end

/-- **The filter keeps no row that the clause leaves out**, for tokens of any kind in either direction; and the clause is the
same for both engines. -/
theorem whereClause_of_filterResults (dir : Direction) (fromToken toToken : Option RoomStreamToken) (col₁ col₂ : ℤ) :
    (∀ engine instanceName, filterResults (if dir = .backwards then toToken else fromToken)
        (if dir = .backwards then fromToken else toToken) instanceName col₁ col₂ = true →
      generatePaginationWhereClause dir (generatePaginationBounds dir fromToken toToken).1
        (generatePaginationBounds dir fromToken toToken).2 engine col₁ col₂ = true) ∧
    ∀ fromBound toBound, generatePaginationWhereClause dir fromBound toBound .postgres col₁ col₂ =
      generatePaginationWhereClause dir fromBound toBound .sqlite col₁ col₂ := by
  constructor
  · intro engine instanceName h
    obtain ⟨hlower, hupper⟩ := sqlBound_of_filterResults h engine
    cases dir <;> simp_all [generatePaginationWhereClause, generatePaginationBounds, Option.all_map]
  intro fromBound toBound
  have hengine : ∀ bound values, makeGenericSqlBound bound values .postgres col₁ col₂ =
      makeGenericSqlBound bound values .sqlite col₁ col₂ := by
    rintro bound ⟨_ | val₁, val₂⟩
    · rfl
    · rw [sqlBound_some, sqlBound_some]
  simp only [generatePaginationWhereClause, hengine]

theorem pastStart_nextToken (topological stream : ℤ) (p : ℤ ×ₗ ℤ) :
    dir.pastStart (generateNextToken dir (some topological) stream).place p ↔
      dir.before (toLex (topological, stream)) p := by
  cases dir
  · rfl
  obtain ⟨q, rfl⟩ := toLex.surjective p
  simp only [Direction.pastStart, Direction.before, RoomStreamToken.place, generateNextToken, getD_some,
    Prod.Lex.toLex_le_toLex, Prod.Lex.toLex_lt_toLex]
  omega

end Meaning

end Synapse.Stream
