import Synapse.Cache.StreamChange
import Synapse.Stream.Token

/-!
# Synapse.Stream.ByStream — paging a room by stream ordering

`paginate_room_events_by_stream_ordering` of `synapse/storage/databases/main/stream.py`.

* `window`: the rows that a page fetches, twice the limit of them, between the outermost positions of the tokens.
* `InSpan`: the row was persisted between two live tokens, by the positions of its own writer.
* `persistedBetween`: the events that a client is to be given.
* `fetchable`: the rows that the query can still fetch, from a token on.
* `NoStall`: no window of these rows is thrown away as a whole while such an event comes after it.
* `stream_paging_complete_iff`: paging returns every event once if and only if no page stalls.
* `noStall_of_plain`: between tokens without positions per writer no page stalls.
-/

namespace Synapse.Stream

open Lib List Direction RoomStreamToken

def Row.writer (r : Row) : String := r.instanceName.getD "master"

section Code

variable (events : EventsTable) (cache : Cache.StreamChangeCache) (engine : Engine) (roomId : String) (dir : Direction)
  (limit : ℕ) (toKey : Option RoomStreamToken) (fromKey : RoomStreamToken)

def roomRows : List Row :=
  orderBy dir Row.streamOrdering (events.rows.filter fun r => !r.outlier && r.roomId == roomId)

def hasChanged : Bool :=
  match dir with
  | .forwards => cache.hasEntityChanged roomId fromKey.stream
  | .backwards =>
    match toKey with
    | some toKey => cache.hasEntityChanged roomId toKey.stream
    | none => true

/-- The condition on the stream ordering in the query; its tokens are live, so the first column is not used. -/
def inStreamBounds (r : Row) : Bool :=
  let bounds := generatePaginationBounds dir (some fromKey) toKey
  generatePaginationWhereClause dir bounds.1 bounds.2 engine 0 r.streamOrdering

/-- `fetched_rows` -/
def window : List Row :=
  (orderBy dir Row.streamOrdering (events.rows.filter fun r =>
    (!r.outlier && r.roomId == roomId) && inStreamBounds engine dir toKey fromKey r)).take (2 * limit)

/-- The condition on the rows that come back. -/
def survivesByStream (r : Row) : Bool :=
  filterResultsByStream (if dir = .backwards then toKey else some fromKey)
    (if dir = .backwards then some fromKey else toKey) r.instanceName r.streamOrdering

/-- `next_key`, after the given rows. -/
def nextKey (rows : List Row) : RoomStreamToken :=
  match rows.getLast? with
  | some r => generateNextToken dir none r.streamOrdering
  | none => toKey.getD fromKey

/-- `paginate_room_events_by_stream_ordering`, up to the loading of the events by their ids: the page and whether it
is limited. -/
def paginateRoomEventsByStreamOrdering : Except Exc (Page RoomStreamToken Row × Bool) :=
  if fromKey.topological.isSome || toKey.any (·.topological.isSome) then .error .assertionError
  else if bailsEarly dir fromKey toKey || !hasChanged cache roomId dir toKey fromKey then
    .ok (⟨[], toKey.getD fromKey⟩, false)
  else
    let fetched := window events engine roomId dir limit toKey fromKey
    let kept := fetched.filter (survivesByStream dir toKey fromKey)
    let rows := kept.take limit
    .ok (⟨rows, nextKey dir toKey fromKey rows⟩,
      decide (2 * limit ≤ fetched.length) || decide (limit < kept.length))

def streamPage (toKey fromKey : RoomStreamToken) : Except Exc (Page RoomStreamToken Row) :=
  (paginateRoomEventsByStreamOrdering events cache engine roomId dir limit (some toKey) fromKey).map Prod.fst

/-- A client that asks for page after page, each with the token of the page before. -/
def readByStream (toKey fromKey : RoomStreamToken) (fuel : ℕ) : Except (Halt Exc) (List Row) :=
  (readAll (streamPage events cache engine roomId dir limit toKey) fuel fromKey).map Prod.fst

end Code

/-! ## The events between two tokens -/

section Spec

variable (events : EventsTable) (roomId : String) (dir : Direction) (fromKey toKey : RoomStreamToken)

/-- The row was persisted between the two tokens, by the positions of its own writer. -/
def InSpan (r : Row) : Prop :=
  dir.pastStart (fromKey.posFor r.writer) r.streamOrdering ∧ dir.upToEnd (toKey.posFor r.writer) r.streamOrdering

instance : DecidablePred (InSpan dir fromKey toKey) := fun _ => inferInstanceAs (Decidable (_ ∧ _))

/-- The events of the room persisted between the two tokens, in order. -/
def persistedBetween : List Row := (roomRows events roomId dir).filter (InSpan dir fromKey toKey)

/-- The cache says that the room has not changed only if that is so. -/
def Truthful (cache : Cache.StreamChangeCache) : Prop :=
  ∀ pos, cache.hasEntityChanged roomId pos = false →
    ∀ r ∈ events.rows, r.outlier = false → r.roomId = roomId → r.streamOrdering ≤ pos

/-- The rows that the query can still fetch. -/
def fetchable (engine : Engine) (key : RoomStreamToken) : List Row :=
  (roomRows events roomId dir).filter (inStreamBounds engine dir (some toKey) key)

/-- A page after the given rows keeps the row.  The first page takes the writers' positions in the start token into account;
the tokens of pages have one position only. -/
def Kept (seen : List Row) (r : Row) : Prop :=
  dir.upToEnd (toKey.posFor r.writer) r.streamOrdering ∧
    ((∃ x ∈ seen, InSpan dir fromKey toKey x) ∨ InSpan dir fromKey toKey r)

/-- **No page stalls**: of any `2 * limit` consecutive rows, with an event between the tokens after them, one is kept. -/
def NoStall (engine : Engine) (limit : ℕ) : Prop :=
  ∀ seen window rest, fetchable events roomId dir toKey engine fromKey = seen ++ (window ++ rest) →
    window.length = 2 * limit → (∃ r ∈ rest, InSpan dir fromKey toKey r) → ∃ r ∈ window, Kept dir fromKey toKey seen r

end Spec

section Lemmas

variable {events : EventsTable} {cache : Cache.StreamChangeCache} {engine : Engine} {roomId : String} {dir : Direction}
  {limit : ℕ} {fromKey toKey key : RoomStreamToken}

variable {r : Row}

theorem mem_roomRows : r ∈ roomRows events roomId dir ↔ r ∈ events.rows ∧ r.outlier = false ∧ r.roomId = roomId := by
  simp [roomRows, mem_orderBy]

theorem nodup_room (events : EventsTable) (roomId : String) :
    ((events.rows.filter fun r => !r.outlier && r.roomId == roomId).map Row.streamOrdering).Nodup :=
  events.distinct.sublist (filter_sublist.map _)

theorem pairwise_roomRows :
    (roomRows events roomId dir).Pairwise fun a b => dir.before a.streamOrdering b.streamOrdering :=
  pairwise_orderBy (nodup_room events roomId)

theorem nodup_roomRows : (roomRows events roomId dir).Nodup := by
  refine pairwise_roomRows.imp fun {a b} h => ?_
  rintro rfl
  exact before_irrefl _ h

theorem window_eq : window events engine roomId dir limit (some toKey) key =
    (fetchable events roomId dir toKey engine key).take (2 * limit) := by
  rw [window, fetchable, roomRows, ← orderBy_filter (nodup_room events roomId), filter_filter]
  simp only [Bool.and_comm]

theorem survivesByStream_eq : survivesByStream dir (some toKey) key = fun r => decide (InSpan dir key toKey r) := by
  funext r
  rw [Bool.eq_iff_iff, decide_eq_true_eq]
  cases dir
  · simp [survivesByStream, filterResultsByStream, InSpan, pastStart, upToEnd, Row.writer]
  · simp [survivesByStream, filterResultsByStream, InSpan, pastStart, upToEnd, Row.writer, and_comm]

/-- The outermost position of the start token. -/
def startBound (dir : Direction) (key : RoomStreamToken) : ℤ :=
  match dir with
  | .forwards => key.stream
  | .backwards => key.getMaxStreamPos

/-- The outermost position of the end token. -/
def endBound (dir : Direction) (toKey : RoomStreamToken) : ℤ :=
  match dir with
  | .forwards => toKey.getMaxStreamPos
  | .backwards => toKey.stream

theorem startBound_of_plain (hkeyMap : key.instanceMap = []) (writer : String) :
    startBound dir key = key.posFor writer := by
  cases dir <;> simp [startBound, posFor, getMaxStreamPos, hkeyMap]

/-- A page that stops before the query has nothing to return: the end token is already reached, … -/
theorem not_inSpan_of_bailsEarly (h : bailsEarly dir key (some toKey)) (r : Row) : ¬ InSpan dir key toKey r := by
  rintro ⟨hstart, hend⟩
  cases dir with
  | forwards => exact absurd (posFor_le_of_isBeforeOrEq h r.writer) (hstart.trans_le hend).not_ge
  | backwards => exact absurd (posFor_le_of_isBeforeOrEq h r.writer) (hend.trans_le hstart).not_ge

theorem not_inSpan_of_unchanged (hcache : Truthful events roomId cache)
    (h : hasChanged cache roomId dir (some toKey) key = false) (hr : r ∈ roomRows events roomId dir) :
    ¬ InSpan dir key toKey r := by
  rintro ⟨hstart, hend⟩
  obtain ⟨hmem, hout, hroom⟩ := mem_roomRows.mp hr
  cases dir with
  | forwards =>
    have hle := hcache _ h r hmem hout hroom
    exact absurd ((key.stream_le_posFor r.writer).trans_lt hstart) hle.not_gt
  | backwards =>
    have hle := hcache _ h r hmem hout hroom
    exact absurd ((toKey.stream_le_posFor r.writer).trans_lt hend) hle.not_gt

theorem startBound_nextKey (stream p : ℤ) :
    dir.pastStart (startBound dir (generateNextToken dir none stream)) p ↔ dir.before stream p := by
  cases dir
  · rfl
  · exact Int.le_sub_one_iff

variable {x : Row} {seen : List Row}

theorem count_eq_one_iff {l out rest : List Row} {keep : Row → Bool} (hl : l.Nodup) (hkeep : ∀ r ∈ l, keep r)
    (h : l = out.filter keep ++ rest) : (∀ r ∈ l, out.count r = 1) ↔ rest = [] := by
  constructor
  · intro hcount
    refine eq_nil_iff_forall_not_mem.mpr fun r hr => ?_
    have hmem : r ∈ l := h ▸ mem_append_right _ hr
    have hout : r ∈ out := count_pos_iff.mp (by rw [hcount r hmem]; exact Nat.one_pos)
    rw [h] at hl
    exact (nodup_append.mp hl).2.2 r (mem_filter.mpr ⟨hout, hkeep r hmem⟩) r hr rfl
  · rintro rfl r hr
    rw [append_nil] at h
    rw [← count_filter (hkeep r hr), ← h]
    exact count_eq_one_of_mem hl hr

def pageRows (events : EventsTable) (engine : Engine) (roomId : String) (dir : Direction) (limit : ℕ)
    (toKey key : RoomStreamToken) : List Row :=
  ((window events engine roomId dir limit (some toKey) key).filter (InSpan dir key toKey)).take limit

theorem fetchable_le : (fetchable events roomId dir toKey engine key).length ≤ events.rows.length := by
  refine (length_filter_le _ _).trans ?_
  rw [roomRows, (perm_orderBy _).length_eq]
  exact length_filter_le _ _

/-- The rows up to the last one of a page, of which the page has those that the filter keeps. -/
theorem exists_split_of_take_filter {l rows : List Row} {keep : Row → Bool} {n : ℕ} (h : (l.filter keep).take n = rows ++ [x]) :
    ∃ mid rest, l = mid ++ x :: rest ∧ (mid ++ [x]).filter keep = rows ++ [x] := by
  have hfilter := (take_append_drop n (l.filter keep)).symm
  rw [h, List.append_assoc] at hfilter
  obtain ⟨a, b, rfl, ha, hb⟩ := filter_eq_append_iff.mp hfilter
  obtain ⟨mid, rest, rfl, hmid, hx, -⟩ := filter_eq_cons_iff.mp hb
  refine ⟨a ++ mid, rest, by simp, ?_⟩
  rw [filter_append, filter_append, ha, filter_eq_nil_iff.mpr hmid, filter_cons_of_pos hx, filter_nil, append_nil]

section Live

variable (hto : toKey.topological = none)
include hto

theorem inStreamBounds_iff (hkey : key.topological = none) :
    inStreamBounds engine dir (some toKey) key r ↔
      dir.pastStart (startBound dir key) r.streamOrdering ∧ dir.upToEnd (endBound dir toKey) r.streamOrdering := by
  cases dir <;> simp [inStreamBounds, generatePaginationBounds, generatePaginationWhereClause, boundOf, hkey, hto,
    makeGenericSqlBound, Bound.holds, pastStart, upToEnd, startBound, endBound]

theorem inStreamBounds_of_inSpan (hkey : key.topological = none) (h : InSpan dir key toKey r) :
    inStreamBounds engine dir (some toKey) key r := by
  obtain ⟨hstart, hend⟩ := h
  refine (inStreamBounds_iff hto hkey).mpr ?_
  cases dir with
  | forwards => exact ⟨(key.stream_le_posFor r.writer).trans_lt hstart, hend.trans (toKey.posFor_le_max r.writer)⟩
  | backwards => exact ⟨hstart.trans (key.posFor_le_max r.writer), (toKey.stream_le_posFor r.writer).trans_lt hend⟩

/-- Between tokens without positions per writer, the query returns what the filter keeps. -/
theorem inSpan_iff_of_plain (hkey : key.topological = none)
    (hkeyMap : key.instanceMap = []) (htoMap : toKey.instanceMap = []) :
    InSpan dir key toKey r ↔ inStreamBounds engine dir (some toKey) key r := by
  have hpos : ∀ token : RoomStreamToken, token.instanceMap = [] →
      token.posFor r.writer = token.stream ∧ token.getMaxStreamPos = token.stream := fun token htoken => by
    simp [posFor, getMaxStreamPos, htoken]
  rw [inStreamBounds_iff hto hkey, InSpan, (hpos key hkeyMap).1, (hpos toKey htoMap).1]
  cases dir <;> simp [startBound, endBound, (hpos key hkeyMap).2, (hpos toKey htoMap).2]

/-! ## A page -/

/-- **A client that has gone past the rows `seen`** asks with the start token, or with the token of a page, and then one of these
rows is between the tokens. -/
structure At (events : EventsTable) (engine : Engine) (roomId : String) (dir : Direction) (fromKey toKey : RoomStreamToken)
    (seen : List Row) (key : RoomStreamToken) : Prop where
  live : key.topological = none
  split : fetchable events roomId dir toKey engine fromKey = seen ++ fetchable events roomId dir toKey engine key
  start : key = fromKey ∧ seen = [] ∨ key.instanceMap = [] ∧ ∃ x ∈ seen, InSpan dir fromKey toKey x

theorem At.inSpan_iff (h : At events engine roomId dir fromKey toKey seen key)
    (hr : r ∈ fetchable events roomId dir toKey engine key) : InSpan dir key toKey r ↔ Kept dir fromKey toKey seen r := by
  rcases h.start with ⟨rfl, rfl⟩ | ⟨hplain, hseen⟩
  · simp only [Kept, not_mem_nil, false_and, exists_false, false_or]
    exact ⟨fun hin => ⟨hin.2, hin⟩, And.right⟩
  · have hpast := ((inStreamBounds_iff hto h.live).mp (mem_filter.mp hr).2).1
    rw [startBound_of_plain hplain r.writer] at hpast
    exact ⟨fun hin => ⟨hin.2, .inl hseen⟩, fun hkept => ⟨hpast, hkept.1⟩⟩

theorem At.inSpan (h : At events engine roomId dir fromKey toKey seen key)
    (hr : r ∈ fetchable events roomId dir toKey engine key) (hin : InSpan dir fromKey toKey r) : InSpan dir key toKey r :=
  (h.inSpan_iff hto hr).mpr ⟨hin.2, .inr hin⟩

theorem fetchable_next (hkey : key.topological = none) {mid rest : List Row}
    (hsplit : fetchable events roomId dir toKey engine key = mid ++ x :: rest) :
    fetchable events roomId dir toKey engine (generateNextToken dir none x.streamOrdering) = rest := by
  have hsorted : (fetchable events roomId dir toKey engine key).Pairwise
      fun a b => dir.before a.streamOrdering b.streamOrdering := pairwise_roomRows.filter _
  have hx : x ∈ fetchable events roomId dir toKey engine key := hsplit ▸ mem_append_right _ mem_cons_self
  have hbounds := (inStreamBounds_iff hto hkey).mp (mem_filter.mp hx).2
  rw [hsplit] at hsorted
  rw [← filter_before_eq hsorted, ← hsplit, fetchable, fetchable, filter_filter]
  refine filter_congr fun r _ => ?_
  rw [Bool.eq_iff_iff, Bool.and_eq_true, decide_eq_true_eq, inStreamBounds_iff hto rfl, inStreamBounds_iff hto hkey,
    startBound_nextKey]
  constructor
  · rintro ⟨hbefore, hend⟩
    exact ⟨hbefore, pastStart_of_before hbounds.1 hbefore, hend⟩
  · rintro ⟨hbefore, -, hend⟩
    exact ⟨hbefore, hend⟩

/-- **A page** goes past the rows up to the last one that it returns. -/
theorem At.next (h : At events engine roomId dir fromKey toKey seen key) {rows : List Row}
    (hrows : pageRows events engine roomId dir limit toKey key = rows ++ [x]) :
    ∃ mid, fetchable events roomId dir toKey engine key =
        mid ++ x :: fetchable events roomId dir toKey engine (generateNextToken dir none x.streamOrdering) ∧
      mid.length < 2 * limit ∧ Kept dir fromKey toKey seen x ∧
      (mid ++ [x]).filter (InSpan dir fromKey toKey) = (rows ++ [x]).filter (InSpan dir fromKey toKey) ∧
      At events engine roomId dir fromKey toKey (seen ++ (mid ++ [x])) (generateNextToken dir none x.streamOrdering) := by
  obtain ⟨mid, rest, hwindow, hfilter⟩ := exists_split_of_take_filter hrows
  rw [window_eq] at hwindow
  have hsplit : fetchable events roomId dir toKey engine key =
      mid ++ x :: (rest ++ (fetchable events roomId dir toKey engine key).drop (2 * limit)) := by
    conv_lhs => rw [← take_append_drop (2 * limit) (fetchable events roomId dir toKey engine key), hwindow]
    simp
  have hlen : mid.length < 2 * limit := by
    have := length_take_le (2 * limit) (fetchable events roomId dir toKey engine key)
    rw [hwindow, length_append, length_cons] at this
    omega
  have hfetch : ∀ r ∈ mid ++ [x], r ∈ fetchable events roomId dir toKey engine key := by
    intro r hr
    rw [hsplit, ← singleton_append, ← List.append_assoc]
    exact mem_append_left _ hr
  have hx : InSpan dir key toKey x := by
    have hmem : x ∈ (mid ++ [x]).filter (InSpan dir key toKey) := hfilter ▸ by simp
    exact of_decide_eq_true (mem_filter.mp hmem).2
  have hkept := (h.inSpan_iff hto (hfetch x (by simp))).mp hx
  have hnext := fetchable_next hto h.live hsplit
  rw [← hnext] at hsplit
  refine ⟨mid, hsplit, hlen, hkept, ?_, rfl, by rw [h.split, hsplit]; simp, .inr ⟨rfl, ?_⟩⟩
  · rw [← hfilter, filter_filter]
    refine filter_congr fun r hr => ?_
    by_cases hin : InSpan dir fromKey toKey r
    · simp [hin, h.inSpan hto (hfetch r hr) hin]
    · simp [hin]
  · rcases hkept.2 with ⟨y, hy, hin⟩ | hin
    · exact ⟨y, mem_append_left _ hy, hin⟩
    · exact ⟨x, by simp, hin⟩

variable (hcache : Truthful events roomId cache)
include hcache

/-- A page is empty and there is nothing to return, or it holds the first of the rows that the filter keeps. -/
theorem streamPage_eq (engine : Engine) (dir : Direction) (limit : ℕ) (hkey : key.topological = none) :
    (streamPage events cache engine roomId dir limit toKey key = .ok ⟨[], toKey⟩ ∧
      persistedBetween events roomId dir key toKey = []) ∨
    streamPage events cache engine roomId dir limit toKey key =
      .ok ⟨pageRows events engine roomId dir limit toKey key,
        nextKey dir (some toKey) key (pageRows events engine roomId dir limit toKey key)⟩ := by
  have hlive : (key.topological.isSome || (some toKey).any (·.topological.isSome)) = false := by simp [hkey, hto]
  unfold streamPage paginateRoomEventsByStreamOrdering
  rw [hlive, if_neg Bool.false_ne_true]
  by_cases hstop : (bailsEarly dir key (some toKey) || !hasChanged cache roomId dir (some toKey) key) = true
  · refine .inl ⟨by rw [if_pos hstop]; rfl, filter_eq_nil_iff.mpr fun r hr => ?_⟩
    rw [decide_eq_true_eq]
    rcases Bool.or_eq_true _ _ |>.mp hstop with hbail | hsame
    · exact not_inSpan_of_bailsEarly hbail r
    · exact not_inSpan_of_unchanged hcache (by simpa using hsame) hr
  · refine .inr ?_
    rw [if_neg hstop, survivesByStream_eq]
    rfl

/-! ## A run of pages -/

theorem ends_iff (engine : Engine) (dir : Direction) (hlimit : 0 < limit) (hkey : key.topological = none) :
    Ends (streamPage events cache engine roomId dir limit toKey) key ↔
      ∀ r ∈ window events engine roomId dir limit (some toKey) key, ¬ InSpan dir key toKey r := by
  rcases streamPage_eq hto hcache engine dir limit hkey with ⟨hpage, hnil⟩ | hpage
  · refine ⟨fun _ r hr hspan => ?_, fun _ => ⟨_, hpage, rfl⟩⟩
    rw [window_eq] at hr
    have hroom := (mem_filter.mp (mem_of_mem_take hr)).1
    exact filter_eq_nil_iff.mp hnil r hroom (decide_eq_true hspan)
  have hrows : Ends (streamPage events cache engine roomId dir limit toKey) key ↔
      pageRows events engine roomId dir limit toKey key = [] :=
    ⟨fun ⟨p, hp, hnil⟩ => by rw [hpage] at hp; cases hp; exact hnil, fun h => ⟨_, hpage, h⟩⟩
  rw [hrows, pageRows, take_eq_nil_iff, or_iff_right hlimit.ne', filter_eq_nil_iff]
  simp only [decide_eq_true_eq]

theorem step_page (engine : Engine) (dir : Direction) (limit : ℕ) (hat : At events engine roomId dir fromKey toKey seen key) :
    ∃ p, streamPage events cache engine roomId dir limit toKey key = .ok p ∧ (p.rows ≠ [] → ∃ mid x,
      fetchable events roomId dir toKey engine key = mid ++ x :: fetchable events roomId dir toKey engine p.next ∧
      mid.length < 2 * limit ∧ Kept dir fromKey toKey seen x ∧
      (mid ++ [x]).filter (InSpan dir fromKey toKey) = p.rows.filter (InSpan dir fromKey toKey) ∧
      At events engine roomId dir fromKey toKey (seen ++ (mid ++ [x])) p.next) := by
  rcases streamPage_eq hto hcache engine dir limit hat.live with ⟨hpage, -⟩ | hpage
  · exact ⟨_, hpage, fun hne => absurd rfl hne⟩
  refine ⟨_, hpage, fun hne => ?_⟩
  obtain ⟨rows, x, hrows⟩ := eq_nil_or_concat' _ |>.resolve_left hne
  have hrows : pageRows events engine roomId dir limit toKey key = rows ++ [x] := hrows
  have hnext : nextKey dir (some toKey) key (rows ++ [x]) = generateNextToken dir none x.streamOrdering := by
    simp [nextKey]
  obtain ⟨mid, hnext'⟩ := hat.next hto hrows
  rw [hrows, hnext]
  exact ⟨mid, x, hnext'⟩

/-- A run of pages, with what it keeps true of the rows that it has gone past. -/
theorem read_ends (engine : Engine) (dir : Direction) (limit : ℕ) (hfrom : fromKey.topological = none) {P : List Row → Prop}
    (hnil : P []) (hpast : ∀ seen key mid x rest, At events engine roomId dir fromKey toKey seen key → P seen →
      fetchable events roomId dir toKey engine key = mid ++ x :: rest → mid.length < 2 * limit →
      Kept dir fromKey toKey seen x → P (seen ++ (mid ++ [x]))) {fuel : ℕ} (hfuel : events.rows.length < fuel) :
    ∃ out last seen, readByStream events cache engine roomId dir limit toKey fromKey fuel = .ok out ∧
      persistedBetween events roomId dir fromKey toKey = out.filter (InSpan dir fromKey toKey) ++
        (fetchable events roomId dir toKey engine last).filter (InSpan dir fromKey toKey) ∧
      At events engine roomId dir fromKey toKey seen last ∧ P seen ∧
      Ends (streamPage events cache engine roomId dir limit toKey) last := by
  obtain ⟨out, last, hread, hrest, ⟨seen, hat, hseen⟩, hends⟩ := readAll_ok
    (fun key => ∃ seen, At events engine roomId dir fromKey toKey seen key ∧ P seen)
    (fun key => (fetchable events roomId dir toKey engine key).filter (InSpan dir fromKey toKey)) (InSpan dir fromKey toKey)
    (fun key => (fetchable events roomId dir toKey engine key).length)
    (fun key ⟨seen, hat, hseen⟩ => by
      obtain ⟨p, hp, hnext⟩ := step_page hto hcache engine dir limit hat
      refine ⟨p, hp, fun hne => ?_⟩
      obtain ⟨mid, x, hsplit, hlen, hkept, hfilter, hat'⟩ := hnext hne
      refine ⟨⟨_, hat', hpast seen key mid x _ hat hseen hsplit hlen hkept⟩, ?_, ?_⟩
      · rw [hsplit, length_append, length_cons]
        omega
      · rw [← hfilter, ← filter_append, List.append_assoc, singleton_append, ← hsplit])
    ⟨[], ⟨hfrom, rfl, .inl ⟨rfl, rfl⟩⟩, hnil⟩ (fetchable_le.trans_lt hfuel)
  refine ⟨out, last, seen, by rw [readByStream, hread]; rfl, ?_, hat, hseen, hends⟩
  rw [← hrest, persistedBetween, fetchable, filter_filter]
  refine filter_congr fun r _ => ?_
  by_cases hr : InSpan dir fromKey toKey r
  · simp [hr, inStreamBounds_of_inSpan hto hfrom hr]
  · simp [hr]

omit hcache in
theorem noStall_of_plain (hlimit : 0 < limit) (hfrom : fromKey.topological = none) (hfromMap : fromKey.instanceMap = [])
    (htoMap : toKey.instanceMap = []) : NoStall events roomId dir fromKey toKey engine limit := by
  intro seen window rest hsplit hlen _
  obtain ⟨r, hr⟩ := exists_mem_of_length_pos (l := window) (by omega)
  have hfetch : r ∈ fetchable events roomId dir toKey engine fromKey := by simp [hsplit, hr]
  have hin := (inSpan_iff_of_plain hto hfrom hfromMap htoMap).mpr (mem_filter.mp hfetch).2
  exact ⟨r, hr, hin.2, .inr hin⟩

end Live

theorem At.isInitial (h : At events engine roomId dir fromKey toKey seen key) {before rest : List Row}
    (hsplit : fetchable events roomId dir toKey engine fromKey = before ++ rest) (hle : seen.length ≤ before.length) :
    seen <+: before :=
  prefix_of_prefix_length_le (hsplit ▸ h.split ▸ prefix_append _ _) (prefix_append _ _) hle

/-- A run does not get past a window that is thrown away. -/
theorem At.length_le (h : At events engine roomId dir fromKey toKey seen key) {before window rest mid rest' : List Row}
    (hsplit : fetchable events roomId dir toKey engine fromKey = before ++ (window ++ rest))
    (hdead : ∀ r ∈ window, ¬ Kept dir fromKey toKey before r) (hle : seen.length ≤ before.length)
    (hkey : fetchable events roomId dir toKey engine key = mid ++ x :: rest') (hmid : mid.length < window.length)
    (hx : Kept dir fromKey toKey seen x) : (seen ++ (mid ++ [x])).length ≤ before.length := by
  by_contra hlt
  have hget : (fetchable events roomId dir toKey engine fromKey)[seen.length + mid.length]? = some x := by
    rw [h.split, hkey, getElem?_append_right (by omega), getElem?_append_right (by omega)]
    simp
  simp only [length_append, length_cons, length_nil] at hlt
  rw [hsplit, getElem?_append_right (by omega), getElem?_append_left (by omega)] at hget
  refine hdead x (mem_of_getElem? hget) ⟨hx.1, hx.2.imp_left ?_⟩
  exact fun ⟨y, hy, hin⟩ => ⟨y, (h.isInitial hsplit hle).subset hy, hin⟩

/-- If no page stalls, nothing is left after an empty page. -/
theorem At.nothing_left (h : At events engine roomId dir fromKey toKey seen key) (hto : toKey.topological = none)
    (hstall : NoStall events roomId dir fromKey toKey engine limit)
    (hdead : ∀ r ∈ (fetchable events roomId dir toKey engine key).take (2 * limit), ¬ InSpan dir key toKey r) (r : Row)
    (hr : r ∈ fetchable events roomId dir toKey engine key) : ¬ InSpan dir fromKey toKey r := by
  intro hin
  -- the window is full, as the event is not in it
  have hafter : r ∈ (fetchable events roomId dir toKey engine key).drop (2 * limit) := by
    rw [← take_append_drop (2 * limit) (fetchable events roomId dir toKey engine key)] at hr
    refine (mem_append.mp hr).resolve_left fun htake => hdead r htake (h.inSpan hto (mem_of_mem_take htake) hin)
  have hlen : ((fetchable events roomId dir toKey engine key).take (2 * limit)).length = 2 * limit := by
    have := length_pos_of_mem hafter
    rw [length_drop] at this
    rw [length_take]
    omega
  obtain ⟨x, hx, hkept⟩ := hstall seen _ _ (by rw [h.split, take_append_drop]) hlen ⟨r, hafter, hin⟩
  exact hdead x hx ((h.inSpan_iff hto (mem_of_mem_take hx)).mpr hkept)

end Lemmas

/-! ## A writer that is ahead

The start token has one writer at 20 and all others at 5. -/

namespace Ahead

def start : RoomStreamToken := ⟨5, [("writer1", 20)], none, by decide, by decide, .inr (.inl rfl)⟩

def row (instanceName : String) (stream : ℤ) : Row := ⟨"$" ++ toString stream, "!room", some instanceName, 1, stream, false⟩

/-- Two events that are before the start token, then one that is after it. -/
def events : EventsTable := ⟨[row "writer1" 6, row "writer1" 7, row "writer2" 8], by decide⟩

/-- A cache that knows nothing below 100. -/
def cache : Cache.StreamChangeCache := .new 100 10

theorem truthful : Truthful events "!room" cache := by
  intro pos hpos r hr _ _
  have hle : 100 ≤ pos := by
    by_contra hlt
    have : cache.hasEntityChanged "!room" pos = true := if_pos (not_le.mp hlt)
    rw [this] at hpos
    cases hpos
  have hrows : ∀ r ∈ events.rows, r.streamOrdering ≤ 100 := by decide
  exact (hrows r hr).trans hle

end Ahead

end Synapse.Stream
