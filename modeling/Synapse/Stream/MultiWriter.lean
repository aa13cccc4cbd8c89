import Synapse.Lib.Dict
import Synapse.Lib.Sparse
import Synapse.Stream.Token

/-!
# Synapse.Stream.MultiWriter — tokens with a position per writer

`AbstractMultiWriterStreamToken` of `synapse/types/__init__.py`, with its subclasses `MultiWriterStreamToken` and
`RoomStreamToken`.  A token stands for a function from writers to positions.

* `AbstractMultiWriterStreamToken.new`, `RoomStreamToken.new`: construction, with the checks of `__attrs_post_init__`.
* `copyAndAdvance`, `isBeforeOrEq`, `boundStreamToken`: the operations.
* `equals`: equality of tokens, where the items of a dict may come in any order; `equals_iff`: it is that of the functions.
* `Laws`: the operations are order, maximum and minimum of the functions.
* **`token_laws`**: they hold for live tokens of both classes.
* **`ranges_partition`**: consecutive ranges neither skip nor repeat a position.
-/

namespace Synapse.Stream

open Lib List RoomStreamToken

/-- The attributes of `AbstractMultiWriterStreamToken`, with what `__attrs_post_init__` enforces. -/
structure AbstractMultiWriterStreamToken where
  stream : ℤ
  /-- The items of the dict. -/
  instanceMap : List (String × ℤ)
  nodupKeys : (instanceMap.map Prod.fst).Nodup
  above : ∀ item ∈ instanceMap, stream < item.2

/-- The class has no attributes of its own. -/
abbrev MultiWriterStreamToken := AbstractMultiWriterStreamToken

/-- A dict with integer values, as its items. -/
abbrev Items := { items : List (String × ℤ) // (items.map Prod.fst).Nodup }

/-- The values are greater than the stream position. -/
def Items.Above (items : Items) (stream : ℤ) : Prop := ∀ item ∈ items.1, stream < item.2

instance (items : Items) (stream : ℤ) : Decidable (items.Above stream) := inferInstanceAs (Decidable (∀ _ ∈ _, _))

namespace AbstractMultiWriterStreamToken

/-- Construction, with `__attrs_post_init__`. -/
def new (stream : ℤ) (instanceMap : Items) : Except Exc AbstractMultiWriterStreamToken :=
  if h : instanceMap.Above stream then .ok ⟨stream, instanceMap.1, instanceMap.2, h⟩ else .error .valueError

variable (o : SetOrder String) (self other : AbstractMultiWriterStreamToken)

def getStreamPosForInstance (instanceName : String) : ℤ := (self.instanceMap.lookup instanceName).getD self.stream

/-- `set(self.instance_map).union(other.instance_map)`, in the order of iteration. -/
def instances : List String :=
  o.iter ((self.instanceMap.map Prod.fst).toFinset ∪ (other.instanceMap.map Prod.fst).toFinset)

/-- The instance map of `copy_and_advance`, without redundant entries. -/
def advancedMap : Items where
  val := ((instances o self other).map fun i =>
    (i, max (self.getStreamPosForInstance i) (other.getStreamPosForInstance i))).filter fun item =>
      max self.stream other.stream < item.2
  property := by
    refine List.Nodup.sublist (List.filter_sublist.map _) ?_
    rw [List.map_map]
    exact (List.map_id _).symm ▸ o.nodup _

def copyAndAdvance : Except Exc AbstractMultiWriterStreamToken :=
  new (max self.stream other.stream) (advancedMap o self other)

def isBeforeOrEq : Bool :=
  self.stream ≤ other.stream ∧
    ∀ i ∈ self.instanceMap.map Prod.fst ++ other.instanceMap.map Prod.fst,
      self.getStreamPosForInstance i ≤ other.getStreamPosForInstance i

/-- The instance map of `bound_stream_token`. -/
def boundedMap (maxStream : ℤ) : Items where
  val := (self.instanceMap.filter fun item => min self.stream maxStream < min item.2 maxStream).map fun item =>
    (item.1, min item.2 maxStream)
  property := by
    rw [List.map_map]
    exact self.nodupKeys.sublist (List.filter_sublist.map _)

def boundStreamToken (maxStream : ℤ) : Except Exc AbstractMultiWriterStreamToken :=
  new (min self.stream maxStream) (boundedMap self maxStream)

/-- `self == other`: dicts are equal if they have the same items. -/
def equals : Bool := self.stream = other.stream ∧ self.instanceMap.Perm other.instanceMap

/-- `is_stream_position_in_range`; an empty name counts as none. -/
def isStreamPositionInRange (low high : Option AbstractMultiWriterStreamToken) (instanceName : Option String) (pos : ℤ) :
    Bool :=
  let streamOf := fun token : AbstractMultiWriterStreamToken =>
    match instanceName with
    | none | some "" => token.stream
    | some name => token.getStreamPosForInstance name
  (low.all fun token => ! decide (pos ≤ streamOf token)) && (high.all fun token => ! decide (streamOf token < pos))

/-- The function that the token stands for. -/
def sparse : Sparse String ℤ := ⟨self.stream, self.instanceMap, self.nodupKeys, self.above⟩

end AbstractMultiWriterStreamToken

namespace RoomStreamToken

/-- `self.topological` is true. -/
def hasTopological (topological : Option ℤ) : Bool := topological ≠ none ∧ topological ≠ some 0

/-- Construction, with `__attrs_post_init__`. -/
def new (stream : ℤ) (instanceMap : Items) (topological : Option ℤ) : Except Exc RoomStreamToken :=
  if hboth : instanceMap.1 ≠ [] ∧ hasTopological topological = true then .error .valueError
  else if h : instanceMap.Above stream then
    .ok ⟨stream, instanceMap.1, topological, instanceMap.2, h, by
      by_cases hnil : instanceMap.1 = []
      · exact .inl hnil
      right
      by_contra hne
      rw [not_or] at hne
      exact hboth ⟨hnil, decide_eq_true hne⟩⟩
  else .error .valueError

variable (o : SetOrder String) (self other : RoomStreamToken)

/-- What `super()` works on. -/
def toAbstract : AbstractMultiWriterStreamToken := ⟨self.stream, self.instanceMap, self.nodupKeys, self.above⟩

def copyAndAdvance : Except Exc RoomStreamToken :=
  if hasTopological self.topological || hasTopological other.topological then
    .error (.exception [.text "Can't advance topological tokens"])
  else
    -- `attr.evolve(self, stream=max_stream, instance_map=immutabledict(instance_map))`
    new (max self.stream other.stream) (AbstractMultiWriterStreamToken.advancedMap o self.toAbstract other.toAbstract)
      self.topological

def getStreamPosForInstance (instanceName : String) : Except Exc ℤ :=
  if self.topological = none then .ok (self.posFor instanceName) else .error .assertionError

def boundStreamToken (maxStream : ℤ) : Except Exc RoomStreamToken :=
  if self.topological = none then
    new (min self.stream maxStream) (AbstractMultiWriterStreamToken.boundedMap self.toAbstract maxStream) none
  else .error .assertionError

/-- `self == other` -/
def equals : Bool :=
  self.stream = other.stream ∧ self.instanceMap.Perm other.instanceMap ∧ self.topological = other.topological

end RoomStreamToken

/-! ## The laws -/

/-- **What the operations on tokens are.**  `pos` is the position of each writer. -/
structure Laws {τ : Type} (pos : τ → String → ℤ) (stream : τ → ℤ) (instanceMap : τ → List (String × ℤ))
    (equals isBeforeOrEq : τ → τ → Bool) (copyAndAdvance : τ → τ → Except Exc τ)
    (boundStreamToken : τ → ℤ → Except Exc τ) : Prop where
  before : ∀ a b, isBeforeOrEq a b = true ↔ ∀ i, pos a i ≤ pos b i
  advance : ∀ a b, ∃ c, copyAndAdvance a b = .ok c ∧ ∀ i, pos c i = max (pos a i) (pos b i)
  advance_comm : ∀ a b c d, copyAndAdvance a b = .ok c → copyAndAdvance b a = .ok d → equals c d = true
  advance_assoc : ∀ a b c ab bc l r, copyAndAdvance a b = .ok ab → copyAndAdvance ab c = .ok l →
    copyAndAdvance b c = .ok bc → copyAndAdvance a bc = .ok r → equals l r = true
  advance_idem : ∀ a b, copyAndAdvance a a = .ok b → equals b a = true
  upper : ∀ a b c, copyAndAdvance a b = .ok c → isBeforeOrEq a c = true ∧ isBeforeOrEq b c = true
  least : ∀ a b c d, copyAndAdvance a b = .ok c → isBeforeOrEq a d = true → isBeforeOrEq b d = true →
    isBeforeOrEq c d = true
  bound : ∀ a m, ∃ c, boundStreamToken a m = .ok c ∧ ∀ i, pos c i = min (pos a i) m
  above : ∀ a, ∀ item ∈ instanceMap a, stream a < item.2

theorem Laws.of_pos {τ : Type} {pos : τ → String → ℤ} {stream : τ → ℤ} {instanceMap : τ → List (String × ℤ)}
    {equals isBeforeOrEq : τ → τ → Bool} {copyAndAdvance : τ → τ → Except Exc τ}
    {boundStreamToken : τ → ℤ → Except Exc τ} (hequals : ∀ a b, equals a b = true ↔ ∀ i, pos a i = pos b i)
    (hbefore : ∀ a b, isBeforeOrEq a b = true ↔ ∀ i, pos a i ≤ pos b i)
    (hadvance : ∀ a b, ∃ c, copyAndAdvance a b = .ok c ∧ ∀ i, pos c i = max (pos a i) (pos b i))
    (hbound : ∀ a m, ∃ c, boundStreamToken a m = .ok c ∧ ∀ i, pos c i = min (pos a i) m)
    (habove : ∀ a, ∀ item ∈ instanceMap a, stream a < item.2) :
    Laws pos stream instanceMap equals isBeforeOrEq copyAndAdvance boundStreamToken := by
  have hpos : ∀ {a b c}, copyAndAdvance a b = .ok c → ∀ i, pos c i = max (pos a i) (pos b i) := by
    intro a b c h
    obtain ⟨c', hc', hmax⟩ := hadvance a b
    obtain rfl : c = c' := Except.ok.inj (h.symm.trans hc')
    exact hmax
  refine ⟨hbefore, hadvance, ?_, ?_, ?_, ?_, ?_, hbound, habove⟩
  · intro a b c d hc hd
    refine (hequals c d).mpr fun i => ?_
    rw [hpos hc, hpos hd, max_comm]
  · intro a b c ab bc l r hab hl hbc hr
    refine (hequals l r).mpr fun i => ?_
    rw [hpos hl, hpos hab, hpos hr, hpos hbc, max_assoc]
  · intro a b hb
    refine (hequals b a).mpr fun i => ?_
    rw [hpos hb, max_self]
  · intro a b c hc
    refine ⟨(hbefore a c).mpr fun i => ?_, (hbefore b c).mpr fun i => ?_⟩
    · rw [hpos hc]
      exact le_max_left _ _
    · rw [hpos hc]
      exact le_max_right _ _
  · intro a b c d hc had hbd
    refine (hbefore c d).mpr fun i => ?_
    rw [hpos hc]
    exact max_le ((hbefore a d).mp had i) ((hbefore b d).mp hbd i)

/-! ## The abstract class -/

namespace AbstractMultiWriterStreamToken

variable {o : SetOrder String} {self other : AbstractMultiWriterStreamToken}

theorem equals_iff : self.equals other = true ↔
    ∀ i, self.getStreamPosForInstance i = other.getStreamPosForInstance i := by
  unfold equals
  rw [decide_eq_true_iff]
  exact (Sparse.value_eq_iff (c := self.sparse) (d := other.sparse)).symm

theorem isBeforeOrEq_iff : self.isBeforeOrEq other = true ↔
    ∀ i, self.getStreamPosForInstance i ≤ other.getStreamPosForInstance i := by
  unfold isBeforeOrEq
  rw [decide_eq_true_iff]
  exact (Sparse.value_le_iff (c := self.sparse) (d := other.sparse)).symm

theorem stream_le (self : AbstractMultiWriterStreamToken) (i : String) : self.stream ≤ self.getStreamPosForInstance i :=
  self.sparse.base_le_value i

theorem getStreamPos_of_notMem {i : String} (h : i ∉ self.instanceMap.map Prod.fst) :
    self.getStreamPosForInstance i = self.stream :=
  Sparse.value_of_notMem (c := self.sparse) h

/-- The map of `copy_and_advance` lists the writers whose maximum is above the new stream position. -/
theorem mem_advancedMap {i : String} {pos : ℤ} : (i, pos) ∈ (advancedMap o self other).1 ↔
    max (self.getStreamPosForInstance i) (other.getStreamPosForInstance i) = pos ∧
      max self.stream other.stream < pos := by
  simp only [advancedMap, instances, mem_filter, mem_map, o.mem, Finset.mem_union, mem_toFinset,
    decide_eq_true_eq, Prod.mk.injEq]
  constructor
  · rintro ⟨⟨i, -, rfl, hpos⟩, hlt⟩
    exact ⟨hpos, hlt⟩
  rintro ⟨hpos, hlt⟩
  refine ⟨⟨i, ?_, rfl, hpos⟩, hlt⟩
  -- a writer that neither token lists is at the new stream position
  by_contra hnot
  rw [← mem_map, ← mem_map, not_or] at hnot
  rw [getStreamPos_of_notMem hnot.1, getStreamPos_of_notMem hnot.2] at hpos
  exact hlt.ne hpos

theorem mem_boundedMap {maxStream : ℤ} {i : String} {pos : ℤ} : (i, pos) ∈ (boundedMap self maxStream).1 ↔
    min (self.getStreamPosForInstance i) maxStream = pos ∧ min self.stream maxStream < pos := by
  simp only [boundedMap, mem_map, mem_filter, decide_eq_true_eq, Prod.mk.injEq]
  constructor
  · rintro ⟨⟨i, v⟩, ⟨hmem, hlt⟩, rfl, rfl⟩
    have hv : self.getStreamPosForInstance i = v := Sparse.value_of_mem (c := self.sparse) hmem
    exact ⟨by rw [hv], hlt⟩
  rintro ⟨rfl, hlt⟩
  have habove : self.stream < self.getStreamPosForInstance i := by
    by_contra hle
    exact absurd hlt (not_lt.mpr (min_le_min_right _ (not_lt.mp hle)))
  have hmem : (i, self.getStreamPosForInstance i) ∈ self.instanceMap :=
    (Sparse.mem_entries_iff (c := self.sparse)).mpr ⟨rfl, habove⟩
  exact ⟨_, ⟨hmem, hlt⟩, rfl, rfl⟩

section Construction

variable {stream : ℤ} {items : Items} {f : String → ℤ} (hf : ∀ i, stream ≤ f i)
  (hitems : ∀ i pos, (i, pos) ∈ items.1 ↔ f i = pos ∧ stream < pos)
include hitems

theorem above_of_items : items.Above stream := fun _ hitem => ((hitems _ _).mp hitem).2

include hf

theorem new_ok : ∃ c, new stream items = .ok c ∧ ∀ i, c.getStreamPosForInstance i = f i :=
  ⟨_, dif_pos (above_of_items hitems),
    Sparse.value_of_entries (c := sparse ⟨stream, items.1, items.2, above_of_items hitems⟩) hf hitems⟩

theorem new_room_ok : ∃ c, RoomStreamToken.new stream items none = .ok c ∧ c.topological = none ∧
    ∀ i, c.posFor i = f i := by
  refine ⟨⟨stream, items.1, none, items.2, above_of_items hitems, .inr (.inl rfl)⟩, ?_, rfl,
    Sparse.value_of_entries (c := sparse ⟨stream, items.1, items.2, above_of_items hitems⟩) hf hitems⟩
  unfold RoomStreamToken.new
  rw [dif_neg (by simp [RoomStreamToken.hasTopological]), dif_pos]

end Construction

variable (self other) in
theorem max_stream_le (i : String) : max self.stream other.stream ≤
    max (self.getStreamPosForInstance i) (other.getStreamPosForInstance i) :=
  max_le_max (stream_le self i) (stream_le other i)

variable (self) in
theorem min_stream_le (maxStream : ℤ) (i : String) : min self.stream maxStream ≤
    min (self.getStreamPosForInstance i) maxStream :=
  min_le_min_right _ (stream_le self i)

end AbstractMultiWriterStreamToken

open AbstractMultiWriterStreamToken

/-! ## Live room tokens -/

namespace RoomStreamToken

/-- A live token: one without a topological part. -/
abbrev Live := { token : RoomStreamToken // token.topological = none }

/-- The result of an operation on live tokens that is a live token. -/
def asLive (r : Except Exc RoomStreamToken) : Except Exc Live :=
  r >>= fun token => if h : token.topological = none then .ok ⟨token, h⟩ else .error .assertionError

theorem asLive_ok {r : Except Exc RoomStreamToken} {f : String → ℤ}
    (h : ∃ c, r = .ok c ∧ c.topological = none ∧ ∀ i, c.posFor i = f i) :
    ∃ c, asLive r = .ok c ∧ ∀ i, c.1.posFor i = f i := by
  obtain ⟨c, rfl, hnone, hpos⟩ := h
  exact ⟨⟨c, hnone⟩, dif_pos hnone, hpos⟩

variable (a b : Live)

theorem equals_live_iff : a.1.equals b.1 = true ↔ ∀ i, a.1.posFor i = b.1.posFor i := by
  refine Iff.trans ?_ (Sparse.value_eq_iff (c := a.1.toAbstract.sparse) (d := b.1.toAbstract.sparse)).symm
  unfold equals
  rw [decide_eq_true_iff, a.2, b.2]
  exact ⟨fun ⟨hstream, hmap, _⟩ => ⟨hstream, hmap⟩, fun ⟨hstream, hmap⟩ => ⟨hstream, hmap, rfl⟩⟩

theorem isBeforeOrEq_live_iff : a.1.isBeforeOrEq b.1 = true ↔ ∀ i, a.1.posFor i ≤ b.1.posFor i := by
  unfold isBeforeOrEq
  rw [decide_eq_true_iff]
  exact (Sparse.value_le_iff (c := a.1.toAbstract.sparse) (d := b.1.toAbstract.sparse)).symm

theorem copyAndAdvance_live (o : SetOrder String) : ∃ c, a.1.copyAndAdvance o b.1 = .ok c ∧ c.topological = none ∧
    ∀ i, c.posFor i = max (a.1.posFor i) (b.1.posFor i) := by
  unfold copyAndAdvance
  rw [a.2, b.2]
  exact new_room_ok (max_stream_le a.1.toAbstract b.1.toAbstract) fun _ _ => mem_advancedMap

theorem boundStreamToken_live (m : ℤ) : ∃ c, a.1.boundStreamToken m = .ok c ∧ c.topological = none ∧
    ∀ i, c.posFor i = min (a.1.posFor i) m := by
  unfold boundStreamToken
  rw [if_pos a.2]
  exact new_room_ok (min_stream_le a.1.toAbstract m) fun _ _ => mem_boundedMap

end RoomStreamToken

/-- **The algebra of live tokens**, of either class: before-or-equal is pointwise, advancing is the pointwise maximum and
the least upper bound, bounding is the pointwise minimum, and no operation fails its checks. -/
theorem token_laws (o : SetOrder String) :
    Laws (τ := MultiWriterStreamToken) getStreamPosForInstance (·.stream) (·.instanceMap) equals isBeforeOrEq
      (copyAndAdvance o) boundStreamToken ∧
    Laws (τ := RoomStreamToken.Live) (·.1.posFor) (·.1.stream) (·.1.instanceMap) (·.1.equals ·.1) (·.1.isBeforeOrEq ·.1)
      (fun a b => asLive (a.1.copyAndAdvance o b.1))
      (fun a m => asLive (a.1.boundStreamToken m)) := by
  constructor
  · exact Laws.of_pos (fun _ _ => equals_iff) (fun _ _ => isBeforeOrEq_iff)
      (fun a b => new_ok (max_stream_le a b) fun _ _ => mem_advancedMap)
      (fun a m => new_ok (min_stream_le a m) fun _ _ => mem_boundedMap) (·.above)
  · exact Laws.of_pos equals_live_iff isBeforeOrEq_live_iff
      (fun a b => asLive_ok (copyAndAdvance_live a b o))
      (fun a m => asLive_ok (boundStreamToken_live a m)) (·.1.above)

/-! ## Consecutive ranges -/

theorem between_split {x y z : ℤ} (hxy : x ≤ y) (hyz : y ≤ z) (pos : ℤ) :
    (! decide (pos ≤ x) && ! decide (z < pos)) =
      ((! decide (pos ≤ x) && ! decide (y < pos)) ^^ (! decide (pos ≤ y) && ! decide (z < pos))) := by
  grind

/-- **Consecutive ranges**: a position is in the range of the first to the last token if and only if it is in one of the
two ranges, and not in both. -/
theorem ranges_partition (instanceName : Option String) (pos : ℤ) :
    (∀ a b c : AbstractMultiWriterStreamToken, a.isBeforeOrEq b = true → b.isBeforeOrEq c = true →
      isStreamPositionInRange (some a) (some c) instanceName pos =
        (isStreamPositionInRange (some a) (some b) instanceName pos ^^
          isStreamPositionInRange (some b) (some c) instanceName pos)) ∧
    ∀ a b c : RoomStreamToken.Live, a.1.isBeforeOrEq b.1 = true → b.1.isBeforeOrEq c.1 = true →
      filterResultsByStream a.1 c.1 instanceName pos =
        (filterResultsByStream a.1 b.1 instanceName pos ^^ filterResultsByStream b.1 c.1 instanceName pos) := by
  constructor
  · intro a b c hab hbc
    unfold isStreamPositionInRange
    split
    · exact between_split (of_decide_eq_true hab).1 (of_decide_eq_true hbc).1 pos
    · exact between_split (of_decide_eq_true hab).1 (of_decide_eq_true hbc).1 pos
    · exact between_split (isBeforeOrEq_iff.mp hab _) (isBeforeOrEq_iff.mp hbc _) pos
  · intro a b c hab hbc
    exact between_split (posFor_le_of_isBeforeOrEq hab _) (posFor_le_of_isBeforeOrEq hbc _) pos

end Synapse.Stream
