import Mathlib.Logic.Equiv.List
import Synapse.Lib.Table
import Synapse.Lib.Text
import Synapse.Stream.MultiWriter

/-!
# Synapse.Stream.TokenText — tokens as texts

`parse`, `from_string` and `to_string` of the tokens of `synapse/types/__init__.py`.  A text is the list of its
characters, and the digits are those of ASCII.

* `InstanceIds`: the store's ids for writers.
* `RoomStreamToken.toText`, `RoomStreamToken.parse`: `s5`, `t3-5` or `m5~1.7~2.8`.
* `MultiWriterStreamToken.toText`, `MultiWriterStreamToken.parse`: `5` or `m5~1.7`.
* `StreamToken`, `SlidingSyncStreamToken`: keys joined by underscores, and a connection position before them.
* `Survives`: parsing the text of a token gives an equal token.
* **`survives_iff`**: which tokens do.
-/

namespace Synapse.Stream

open Lib List RoomStreamToken

/-- `get_id_for_instance` and `get_name_from_instance_id`: every writer has an id of its own. -/
structure InstanceIds where
  getIdForInstance : String → ℤ
  getNameFromInstanceId : ℤ → Option String
  name_id : ∀ name, getNameFromInstanceId (getIdForInstance name) = some name

/-- `int(text)` -/
def parseInt (t : Text) : Except Exc ℤ := (readInt t).elim (.error .valueError) .ok

theorem Items.nodup (items : Items) : (items.1.map Prod.fst).Nodup := items.2

/-- `instance_map[instance_name] = pos` -/
def Items.set (items : Items) (name : String) (pos : ℤ) : Items :=
  let t := Table.upsert (⟨items.1, items.nodup⟩ : Table String ℤ) name fun _ => pos
  ⟨t.rows, t.nodup⟩

def Items.empty : Items := ⟨[], List.nodup_nil⟩

variable (store : InstanceIds)

/-! ## Positions of writers -/

/-- `f"{instance_id}.{pos}"` -/
def entryText (item : String × ℤ) : Text := intText (store.getIdForInstance item.1) ++ '.' :: intText item.2

/-- `m{stream}~{entries}`, or another text if there are no entries. -/
def writersText (stream : ℤ) (items : List (String × ℤ)) (alone : Text) : Text :=
  match (items.filter fun item => ¬ item.2 ≤ stream).map (entryText store) with
  | [] => alone
  | entries => 'm' :: intText stream ++ '~' :: ['~'].intercalate entries

def parseEntry (items : Items) (part : Text) : Except Exc Items :=
  -- tokens of the form `m5~` were created by a bug
  if part = [] then .ok items
  else
    match part.splitOn '.' with
    | [key, value] => do
      let instanceId ← parseInt key
      let pos ← parseInt value
      match store.getNameFromInstanceId instanceId with
      | some name => .ok (items.set name pos)
      | none => .error (.synapseError 404 [.text "No row found"] .unknown)
    | _ => .error .valueError

/-- What comes after `m`. -/
def parseWriters (rest : Text) : Except Exc (ℤ × Items) :=
  match rest.splitOn '~' with
  | [] => .error .indexError
  | first :: parts => do
    let stream ← parseInt first
    let items ← parts.foldlM (parseEntry store) .empty
    pure (stream, items)

/-! ## The tokens -/

namespace RoomStreamToken

/-- `to_string(store)` -/
def toText (token : RoomStreamToken) : Text :=
  match token.topological with
  | some topological => 't' :: intText topological ++ '-' :: intText token.stream
  | none => writersText store token.stream token.instanceMap ('s' :: intText token.stream)

/-- What is tried in `parse(store, string)`. -/
def parseBody : Text → Except Exc RoomStreamToken
  | 's' :: rest => do new (← parseInt rest) .empty none
  | 't' :: rest => do
    let parts := splitOnce '-' rest
    let topological ← parseInt parts.1
    let stream ← parts.2.elim (.error .indexError) parseInt
    new stream .empty (some topological)
  | 'm' :: rest => do
    let (stream, items) ← parseWriters store rest
    new stream items none
  -- the message for other texts has a format specifier that is not valid
  | _ => .error .valueError

def parse (string : Text) : Except Exc RoomStreamToken :=
  if string.head? = some 's' ∨ string.head? = some 't' ∨ string.head? = some 'm' then
    (parseBody store string).mapError fun _ =>
      .synapseError 400 [.text "Invalid room stream token ", .repr (.str (String.ofList string))] .unknown
  else .error .valueError

end RoomStreamToken

namespace MultiWriterStreamToken

/-- `to_string(store)` -/
def toText (token : MultiWriterStreamToken) : Text :=
  writersText store token.stream token.instanceMap (intText token.stream)

/-- What is tried in `parse(store, string)`. -/
def parseBody (string : Text) : Except Exc MultiWriterStreamToken :=
  match string with
  | [] => .error .indexError
  | c :: rest =>
    if c.isDigit then do AbstractMultiWriterStreamToken.new (← parseInt string) .empty
    else if c = 'm' then do
      let (stream, items) ← parseWriters store rest
      AbstractMultiWriterStreamToken.new stream items
    else .error .valueError

def parse (string : Text) : Except Exc MultiWriterStreamToken :=
  (parseBody store string).mapError fun _ =>
    .synapseError 400 [.text "Invalid stream token ", .repr (.str (String.ofList string))] .unknown

end MultiWriterStreamToken

structure StreamToken where
  roomKey : RoomStreamToken
  presenceKey : ℤ
  typingKey : ℤ
  receiptKey : MultiWriterStreamToken
  accountDataKey : ℤ
  pushRulesKey : ℤ
  toDeviceKey : ℤ
  deviceListKey : ℤ
  groupsKey : ℤ
  unPartialStatedRoomsKey : ℤ

namespace StreamToken

def keyTexts (token : StreamToken) : List Text :=
  [token.roomKey.toText store, intText token.presenceKey, intText token.typingKey,
    MultiWriterStreamToken.toText store token.receiptKey, intText token.accountDataKey, intText token.pushRulesKey,
    intText token.toDeviceKey, intText token.deviceListKey, intText token.groupsKey,
    intText token.unPartialStatedRoomsKey]

/-- `to_string(store)` -/
def toText (token : StreamToken) : Text := ['_'].intercalate (token.keyTexts store)

/-- `while len(keys) < len(attr.fields(cls)): keys.append("0")` -/
def padKeys (keys : List Text) : List Text := keys ++ List.replicate (10 - keys.length) ['0']

/-- What is tried in `from_string(store, string)`. -/
def fromTextBody (string : Text) : Except Exc StreamToken :=
  match padKeys (string.splitOn '_') with
  | [roomKey, presenceKey, typingKey, receiptKey, accountDataKey, pushRulesKey, toDeviceKey, deviceListKey, groupsKey,
      unPartialStatedRoomsKey] => do
    pure ⟨← parse store roomKey, ← parseInt presenceKey, ← parseInt typingKey,
      ← MultiWriterStreamToken.parse store receiptKey, ← parseInt accountDataKey, ← parseInt pushRulesKey,
      ← parseInt toDeviceKey, ← parseInt deviceListKey, ← parseInt groupsKey, ← parseInt unPartialStatedRoomsKey⟩
  | _ => .error .valueError

/-- `from_string(store, string)` -/
def fromText (string : Text) : Except Exc StreamToken :=
  (fromTextBody store string).mapError fun _ => .synapseError 400 [.text "Invalid stream token"] .unknown

/-- `self == other` -/
def equals (self other : StreamToken) : Bool :=
  self.roomKey.equals other.roomKey ∧ self.presenceKey = other.presenceKey ∧ self.typingKey = other.typingKey ∧
    self.receiptKey.equals other.receiptKey ∧ self.accountDataKey = other.accountDataKey ∧
    self.pushRulesKey = other.pushRulesKey ∧ self.toDeviceKey = other.toDeviceKey ∧
    self.deviceListKey = other.deviceListKey ∧ self.groupsKey = other.groupsKey ∧
    self.unPartialStatedRoomsKey = other.unPartialStatedRoomsKey

end StreamToken

structure SlidingSyncStreamToken where
  streamToken : StreamToken
  connectionPosition : ℤ

namespace SlidingSyncStreamToken

/-- `to_string(store)` -/
def toText (token : SlidingSyncStreamToken) : Text :=
  intText token.connectionPosition ++ '/' :: token.streamToken.toText store

/-- What is tried in `from_string(store, string)`. -/
def fromTextBody (string : Text) : Except Exc SlidingSyncStreamToken :=
  match splitOnce '/' string with
  | (connectionPosition, some streamToken) => do
    let connectionPosition ← parseInt connectionPosition
    let streamToken ← StreamToken.fromText store streamToken
    pure ⟨streamToken, connectionPosition⟩
  | (_, none) => .error .valueError

/-- `from_string(store, string)` -/
def fromText (string : Text) : Except Exc SlidingSyncStreamToken :=
  (fromTextBody store string).mapError fun _ => .synapseError 400 [.text "Invalid stream token"] .unknown

/-- `self == other` -/
def equals (self other : SlidingSyncStreamToken) : Bool :=
  self.streamToken.equals other.streamToken ∧ self.connectionPosition = other.connectionPosition

end SlidingSyncStreamToken

/-! ## Reading what was written -/

@[simp] theorem parseInt_intText (z : ℤ) : parseInt (intText z) = .ok z := by
  rw [parseInt, readInt_intText]
  rfl

theorem mapError_eq_ok {α : Type} {x : Except Exc α} {f : Exc → Exc} {a : α} : x.mapError f = .ok a ↔ x = .ok a := by
  cases x with
  | error e => exact ⟨fun h => (by cases h), fun h => (by cases h)⟩
  | ok b => exact Iff.rfl

theorem Items.set_val {items : Items} {name : String} (pos : ℤ) (h : name ∉ items.1.map Prod.fst) :
    (items.set name pos).1 = items.1 ++ [(name, pos)] := by
  unfold set Table.upsert
  rw [dif_neg h]

theorem entryText_ne_nil (item : String × ℤ) : entryText store item ≠ [] := by
  simp [entryText]

theorem splitOn_entryText (item : String × ℤ) :
    (entryText store item).splitOn '.' = [intText (store.getIdForInstance item.1), intText item.2] := by
  have hdot : ∀ z : ℤ, '.' ∉ intText z := fun z => notMem_intText (by decide) (by decide)
  have h : (['.'].intercalate [intText (store.getIdForInstance item.1), intText item.2]).splitOn '.' =
      [intText (store.getIdForInstance item.1), intText item.2] :=
    splitOn_intercalate '.' (by simp [hdot]) (by simp)
  simpa [entryText] using h

theorem parseEntry_entryText (items : Items) (item : String × ℤ) :
    parseEntry store items (entryText store item) = .ok (items.set item.1 item.2) := by
  rw [parseEntry, if_neg (entryText_ne_nil store item), splitOn_entryText]
  show (parseInt _ >>= fun _ => _) = _
  rw [parseInt_intText]
  rw [parseInt_intText]
  show (match store.getNameFromInstanceId _ with | some _ => _ | none => _) = _
  rw [store.name_id]

theorem foldlM_entryText (rest : List (String × ℤ)) (items : Items) (h : ((items.1 ++ rest).map Prod.fst).Nodup) :
    (rest.map (entryText store)).foldlM (parseEntry store) items = .ok ⟨items.1 ++ rest, h⟩ := by
  induction rest generalizing items with
  | nil =>
    show Except.ok items = _
    simp
  | cons item rest ih =>
    have hnew : item.1 ∉ items.1.map Prod.fst := by
      rw [map_append, nodup_append] at h
      intro hmem
      exact h.2.2 _ hmem _ (mem_cons_self ..) rfl
    have hval := Items.set_val item.2 hnew
    have hrest : (items.set item.1 item.2).1 ++ rest = items.1 ++ item :: rest := by
      rw [hval, List.append_assoc, singleton_append]
    rw [map_cons, foldlM_cons, parseEntry_entryText]
    show List.foldlM _ (items.set item.1 item.2) _ = _
    rw [ih (items.set item.1 item.2) (hrest ▸ h)]
    exact congrArg Except.ok (Subtype.ext hrest)

theorem notMem_entryText {c : Char} (hdash : c ≠ '-') (hdot : c ≠ '.') (hdigit : c.isDigit = false)
    (item : String × ℤ) : c ∉ entryText store item := by
  rw [entryText, mem_append, mem_cons]
  rintro (h | h | h)
  · exact notMem_intText hdash hdigit h
  · exact hdot h
  · exact notMem_intText hdash hdigit h

theorem intercalate_cons {sep : Char} (t : Text) {ts : List Text} (h : ts ≠ []) :
    [sep].intercalate (t :: ts) = t ++ sep :: [sep].intercalate ts := by
  obtain ⟨s, ts, rfl⟩ := exists_cons_of_ne_nil h
  simp

theorem parseWriters_text (stream : ℤ) (items : Items) (h : items.1 ≠ []) :
    parseWriters store (intText stream ++ '~' :: ['~'].intercalate (items.1.map (entryText store))) =
      .ok (stream, items) := by
  have hne : items.1.map (entryText store) ≠ [] := fun hnil => h (map_eq_nil_iff.mp hnil)
  have hsplit : (intText stream ++ '~' :: ['~'].intercalate (items.1.map (entryText store))).splitOn '~' =
      intText stream :: items.1.map (entryText store) := by
    rw [← intercalate_cons _ hne]
    refine splitOn_intercalate '~' (fun t ht => ?_) (cons_ne_nil _ _)
    rcases mem_cons.mp ht with rfl | ht
    · exact notMem_intText (by decide) (by decide)
    · obtain ⟨item, -, rfl⟩ := mem_map.mp ht
      exact notMem_entryText store (by decide) (by decide) (by decide) item
  rw [parseWriters, hsplit]
  show (parseInt _ >>= fun _ => _) = _
  rw [parseInt_intText]
  rw [foldlM_entryText]
  rfl

theorem writersText_of_above {stream : ℤ} {items : List (String × ℤ)} (h : ∀ item ∈ items, stream < item.2)
    (hne : items ≠ []) (alone : Text) :
    writersText store stream items alone =
      'm' :: intText stream ++ '~' :: ['~'].intercalate (items.map (entryText store)) := by
  have hall : items.filter (fun item => ¬ item.2 ≤ stream) = items := by
    rw [filter_eq_self]
    intro item hitem
    exact decide_eq_true (not_le.mpr (h item hitem))
  obtain ⟨item, rest, rfl⟩ := exists_cons_of_ne_nil hne
  rw [writersText, hall]
  rfl

/-! ## Which tokens survive -/

/-- **Parsing the text of a token gives an equal token.** -/
def Survives {τ : Type} (toText : τ → Text) (parse : Text → Except Exc τ) (equals : τ → τ → Bool) (token : τ) :
    Prop := ∃ token', parse (toText token) = .ok token' ∧ equals token' token = true

/-- A topological part is not negative, and stands alone. -/
def RoomStreamToken.Plain (token : RoomStreamToken) : Prop :=
  ∀ topological, token.topological = some topological → 0 ≤ topological ∧ token.instanceMap = []

/-- A stream position that stands alone is not negative. -/
def AbstractMultiWriterStreamToken.Plain (token : MultiWriterStreamToken) : Prop :=
  token.instanceMap = [] → 0 ≤ token.stream

def StreamToken.Plain (token : StreamToken) : Prop := token.roomKey.Plain ∧ token.receiptKey.Plain

section Survives

variable {c : Char} {token : RoomStreamToken}

theorem RoomStreamToken.parse_cons {rest : Text} (h : c = 's' ∨ c = 't' ∨ c = 'm') :
    parse store (c :: rest) = .ok token ↔ parseBody store (c :: rest) = .ok token := by
  rw [parse, if_pos (by simpa using h)]
  exact mapError_eq_ok

theorem RoomStreamToken.equals_self (token : RoomStreamToken) : token.equals token = true :=
  decide_eq_true ⟨rfl, .rfl, rfl⟩

theorem AbstractMultiWriterStreamToken.equals_self (token : MultiWriterStreamToken) : token.equals token = true :=
  decide_eq_true ⟨rfl, .rfl⟩

variable {z : ℤ}

theorem dash_notMem_intText (h : 0 ≤ z) : '-' ∉ intText z := by
  obtain ⟨n, rfl⟩ := Int.eq_ofNat_of_zero_le h
  intro hmem
  have hdigit := isDigit_toDigits hmem
  exact absurd hdigit (by decide)

theorem splitOnce_intText_of_neg (h : z < 0) (rest : Text) : (splitOnce '-' (intText z ++ rest)).1 = [] := by
  obtain ⟨n, rfl⟩ := Int.eq_negSucc_of_lt_zero h
  rfl

/-- A token with a topological part comes back without its instance map, unless the part is negative. -/
theorem RoomStreamToken.survives_topological {topological : ℤ} (h : token.topological = some topological) :
    Survives (toText store) (parse store) equals token ↔
      0 ≤ topological ∧ token.instanceMap = [] := by
  have htext : toText store token =
      't' :: (intText topological ++ '-' :: intText token.stream) := by
    rw [toText, h]
    rfl
  unfold Survives
  simp only [htext, parse_cons store (.inr (.inl rfl))]
  by_cases hneg : topological < 0
  · have hempty := splitOnce_intText_of_neg hneg ('-' :: intText token.stream)
    have herror : ∀ token', parseBody store
        ('t' :: (intText topological ++ '-' :: intText token.stream)) ≠ .ok token' := by
      intro token' hok
      rw [parseBody] at hok
      rw [hempty] at hok
      cases hok
    constructor
    · rintro ⟨token', hok, -⟩
      exact absurd hok (herror token')
    · exact fun hpos => absurd hneg (not_lt.mpr hpos.1)
  · have hsplit := splitOnce_append (dash_notMem_intText (not_lt.mp hneg)) (intText token.stream)
    have hok : parseBody store ('t' :: (intText topological ++ '-' :: intText token.stream)) =
        .ok ⟨token.stream, [], some topological, nodup_nil, by simp, .inl rfl⟩ := by
      rw [parseBody, hsplit, parseInt_intText]
      show (parseInt (intText token.stream) >>= fun _ => _) = _
      rw [parseInt_intText]
      show new token.stream .empty (some topological) = _
      simp [new, Items.empty, Items.Above]
    rw [hok]
    constructor
    · rintro ⟨token', hsame, hequals⟩
      cases hsame
      have hperm := (of_decide_eq_true hequals).2.1
      exact ⟨not_lt.mp hneg, nil_perm.mp hperm⟩
    · rintro ⟨-, hnil⟩
      exact ⟨_, rfl, decide_eq_true ⟨rfl, by rw [hnil], h.symm⟩⟩

theorem RoomStreamToken.parse_live (h : token.topological = none) : parse store (toText store token) = .ok token := by
  rw [toText]
  obtain ⟨stream, instanceMap, topological, hnodup, habove, hexclusive⟩ := token
  obtain rfl : topological = none := h
  by_cases hnil : instanceMap = []
  · subst hnil
    refine (parse_cons store (.inl rfl)).mpr ?_
    rw [parseBody, parseInt_intText]
    show new stream .empty none = _
    simp [new, Items.empty, Items.Above]
  rw [writersText_of_above store habove hnil]
  refine (parse_cons store (.inr (.inr rfl))).mpr ?_
  have hwriters := parseWriters_text store stream ⟨instanceMap, hnodup⟩ hnil
  show (parseWriters store (intText stream ++ _) >>= fun _ => _) = _
  rw [hwriters]
  show new stream ⟨instanceMap, hnodup⟩ none = _
  have hlive : ¬ (instanceMap ≠ [] ∧ hasTopological none = true) := fun hboth => (by cases hboth.2)
  rw [new, dif_neg hlive]
  exact dif_pos habove

theorem RoomStreamToken.survives_iff_plain (token : RoomStreamToken) :
    Survives (toText store) (parse store) equals token ↔
      token.Plain := by
  cases h : token.topological with
  | none =>
    refine iff_of_true ⟨token, parse_live store h, token.equals_self⟩ ?_
    intro topological htop
    rw [h] at htop
    cases htop
  | some topological =>
    rw [survives_topological store h]
    refine ⟨fun hplain top htop => ?_, fun hplain => hplain topological h⟩
    rw [h] at htop
    obtain rfl := Option.some.inj htop
    exact hplain

theorem intText_of_nonneg (h : 0 ≤ z) : ∃ c rest, intText z = c :: rest ∧ c.isDigit = true := by
  obtain ⟨n, rfl⟩ := Int.eq_ofNat_of_zero_le h
  obtain ⟨c, rest, hcons⟩ := exists_cons_of_ne_nil Nat.toDigits_ne_nil
  refine ⟨c, rest, hcons, isDigit_toDigits (n := n) ?_⟩
  rw [hcons]
  exact mem_cons_self ..

theorem AbstractMultiWriterStreamToken.survives_iff_plain (token : MultiWriterStreamToken) :
    Survives (MultiWriterStreamToken.toText store) (MultiWriterStreamToken.parse store)
      equals token ↔ token.Plain := by
  obtain ⟨stream, instanceMap, hnodup, habove⟩ := token
  unfold Survives MultiWriterStreamToken.parse
  simp only [mapError_eq_ok]
  by_cases hnil : instanceMap = []
  · subst hnil
    have htext : MultiWriterStreamToken.toText store ⟨stream, [], hnodup, habove⟩ = intText stream := rfl
    rw [htext]
    by_cases hneg : stream < 0
    · obtain ⟨n, rfl⟩ := Int.eq_negSucc_of_lt_zero hneg
      refine iff_of_false ?_ fun hplain => absurd hneg (not_lt.mpr (hplain rfl))
      rintro ⟨token', hok, -⟩
      cases hok
    obtain ⟨c, rest, hcons, hdigit⟩ := intText_of_nonneg (not_lt.mp hneg)
    refine iff_of_true ⟨⟨stream, [], hnodup, habove⟩, ?_, equals_self _⟩ fun _ => not_lt.mp hneg
    have hint := parseInt_intText stream
    rw [hcons] at hint ⊢
    rw [MultiWriterStreamToken.parseBody]
    rw [if_pos hdigit, hint]
    show new stream .empty = _
    exact dif_pos habove
  · refine iff_of_true ⟨⟨stream, instanceMap, hnodup, habove⟩, ?_, equals_self _⟩ fun h => absurd h hnil
    rw [MultiWriterStreamToken.toText, writersText_of_above store habove hnil, cons_append,
      MultiWriterStreamToken.parseBody]
    rw [parseWriters_text store stream ⟨instanceMap, hnodup⟩ hnil]
    exact dif_pos habove

theorem notMem_intercalate {sep : Char} (hsep : c ≠ sep) {ts : List Text} (h : ∀ t ∈ ts, c ∉ t) :
    c ∉ [sep].intercalate ts := by
  induction ts with
  | nil => exact not_mem_nil
  | cons t ts ih =>
    have ht := h t (mem_cons_self ..)
    have hts := ih fun s hs => h s (mem_cons_of_mem t hs)
    by_cases hnil : ts = []
    · subst hnil
      rwa [intercalate_singleton]
    rw [intercalate_cons t hnil, mem_append, mem_cons]
    rintro (hc | hc | hc)
    · exact ht hc
    · exact hsep hc
    · exact hts hc

theorem notMem_writersText (hdash : c ≠ '-') (hdot : c ≠ '.') (htilde : c ≠ '~') (hm : c ≠ 'm')
    (hdigit : c.isDigit = false) (stream : ℤ) (items : List (String × ℤ)) {alone : Text} (halone : c ∉ alone) :
    c ∉ writersText store stream items alone := by
  have hentries : ∀ t ∈ (items.filter fun item => ¬ item.2 ≤ stream).map (entryText store), c ∉ t := by
    intro t ht
    obtain ⟨item, -, rfl⟩ := mem_map.mp ht
    exact notMem_entryText store hdash hdot hdigit item
  rw [writersText]
  split
  · exact halone
  rw [cons_append, mem_cons, mem_append, mem_cons]
  rintro (h | h | h | h)
  · exact hm h
  · exact notMem_intText hdash hdigit h
  · exact htilde h
  · exact notMem_intercalate htilde hentries h

theorem RoomStreamToken.underscore_notMem_toText (token : RoomStreamToken) : '_' ∉ toText store token := by
  have hint : ∀ z : ℤ, '_' ∉ intText z := fun z => notMem_intText (by decide) (by decide)
  rw [toText]
  split
  · simp [hint]
  · refine notMem_writersText store (by decide) (by decide) (by decide) (by decide) (by decide) _ _ ?_
    simp [hint]

theorem StreamToken.splitOn_toText (token : StreamToken) : (token.toText store).splitOn '_' = token.keyTexts store := by
  have hint : ∀ z : ℤ, '_' ∉ intText z := fun z => notMem_intText (by decide) (by decide)
  have hreceipt : '_' ∉ MultiWriterStreamToken.toText store token.receiptKey :=
    notMem_writersText store (by decide) (by decide) (by decide) (by decide) (by decide) _ _ (hint _)
  refine splitOn_intercalate '_' ?_ (cons_ne_nil _ _)
  simp [keyTexts, hint, hreceipt, underscore_notMem_toText]

theorem StreamToken.fromTextBody_toText (token : StreamToken) : fromTextBody store (token.toText store) =
      parse store (token.roomKey.toText store) >>= fun roomKey =>
        MultiWriterStreamToken.parse store (MultiWriterStreamToken.toText store token.receiptKey) >>= fun receiptKey =>
          pure { token with roomKey := roomKey, receiptKey := receiptKey } := by
  rw [fromTextBody, splitOn_toText]
  show (parse store (token.roomKey.toText store) >>= fun _ => _) = _
  simp only [parseInt_intText]
  rfl

theorem StreamToken.survives_iff_plain (token : StreamToken) :
    Survives (toText store) (fromText store) equals token ↔ token.Plain := by
  rw [Plain, ← RoomStreamToken.survives_iff_plain,
    ← AbstractMultiWriterStreamToken.survives_iff_plain]
  unfold Survives fromText
  simp only [mapError_eq_ok, fromTextBody_toText]
  constructor
  · rintro ⟨token', hok, hequals⟩
    obtain ⟨roomKey, hroom, hok⟩ := exc_bind_ok hok
    obtain ⟨receiptKey, hreceipt, hok⟩ := exc_bind_ok hok
    cases hok
    have hkeys := of_decide_eq_true hequals
    exact ⟨⟨roomKey, hroom, hkeys.1⟩, ⟨receiptKey, hreceipt, hkeys.2.2.2.1⟩⟩
  · rintro ⟨⟨roomKey, hroom, hsame⟩, ⟨receiptKey, hreceipt, hsame'⟩⟩
    refine ⟨{ token with roomKey := roomKey, receiptKey := receiptKey }, ?_, ?_⟩
    · rw [hroom, hreceipt]
      rfl
    · exact decide_eq_true ⟨hsame, rfl, rfl, hsame', rfl, rfl, rfl, rfl, rfl, rfl⟩

theorem SlidingSyncStreamToken.survives_iff_plain (token : SlidingSyncStreamToken) :
    Survives (toText store) (fromText store)
      equals token ↔ token.streamToken.Plain := by
  have hsplit : splitOnce '/' (token.toText store) =
      (intText token.connectionPosition, some (token.streamToken.toText store)) :=
    splitOnce_append (notMem_intText (by decide) (by decide)) _
  have hbody : fromTextBody store (token.toText store) =
      StreamToken.fromText store (token.streamToken.toText store) >>= fun streamToken =>
        pure ⟨streamToken, token.connectionPosition⟩ := by
    rw [fromTextBody, hsplit]
    show (parseInt _ >>= fun _ => _) = _
    rw [parseInt_intText]
    rfl
  rw [← StreamToken.survives_iff_plain]
  unfold Survives fromText
  simp only [mapError_eq_ok, hbody]
  constructor
  · rintro ⟨token', hok, hequals⟩
    obtain ⟨streamToken, hstream, hok⟩ := exc_bind_ok hok
    cases hok
    exact ⟨streamToken, hstream, (of_decide_eq_true hequals).1⟩
  · rintro ⟨streamToken, hstream, hsame⟩
    refine ⟨⟨streamToken, token.connectionPosition⟩, ?_, decide_eq_true ⟨hsame, rfl⟩⟩
    rw [hstream]
    rfl

/-- **Which tokens survive.**  A room token loses its instance map to a topological part, which can be `0` beside one,
and a negative number is not read at the start of a multi-writer token or of a topological part. -/
theorem survives_iff :
    (∀ token, Survives (toText store) (parse store) equals token ↔
      token.Plain) ∧
    (∀ token, Survives (MultiWriterStreamToken.toText store) (MultiWriterStreamToken.parse store)
      AbstractMultiWriterStreamToken.equals token ↔ AbstractMultiWriterStreamToken.Plain token) ∧
    (∀ token, Survives (StreamToken.toText store) (StreamToken.fromText store) StreamToken.equals token ↔
      token.Plain) ∧
    (∀ token, Survives (SlidingSyncStreamToken.toText store) (SlidingSyncStreamToken.fromText store)
      SlidingSyncStreamToken.equals token ↔ token.streamToken.Plain) :=
  ⟨survives_iff_plain store, AbstractMultiWriterStreamToken.survives_iff_plain store,
    StreamToken.survives_iff_plain store, SlidingSyncStreamToken.survives_iff_plain store⟩

end Survives

/-- Ids made from the characters of the names. -/
def InstanceIds.ofCharacters : InstanceIds where
  getIdForInstance name := (Encodable.encode (name.toList.map Char.toNat) : ℕ)
  getNameFromInstanceId z :=
    (Encodable.decode (α := List ℕ) z.toNat).map fun codes => String.ofList (codes.map Char.ofNat)
  name_id name := by
    have hchars : (name.toList.map Char.toNat).map Char.ofNat = name.toList := by
      rw [List.map_map]
      exact (List.map_congr_left fun c _ => Char.ofNat_toNat c).trans (List.map_id _)
    rw [Int.toNat_natCast, Encodable.encodek]
    show some (String.ofList _) = _
    rw [hchars, String.ofList_toList]

/-- The token with topological part `0` and a position for one writer. -/
def zeroWithMap : RoomStreamToken := ⟨5, [("w", 7)], some 0, by decide, by decide, .inr (.inr rfl)⟩

/-- Its class allows it, and its text is `t0-5`. -/
theorem zeroWithMap_lost : new 5 ⟨[("w", 7)], by decide⟩ (some 0) = .ok zeroWithMap ∧
      ¬ Survives (toText .ofCharacters) (parse .ofCharacters) equals
        zeroWithMap := by
  refine ⟨rfl, fun h => ?_⟩
  have hplain := (survives_iff_plain .ofCharacters zeroWithMap).mp h 0 rfl
  cases hplain.2

end Synapse.Stream
