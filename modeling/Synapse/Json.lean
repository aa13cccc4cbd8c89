import Mathlib.Data.Rat.Defs

/-!
# Synapse.Json — decoded JSON values and the Python operations the server applies to them

Event contents are `json.loads` output and reach the auth rules unvalidated, so every `int(v)`, `.get`, `in` and
`[...]` of the source can meet any JSON value.  Each of them is a function into `Except Exc` here, with the exception
class Python raises.

* `Exc`: the exceptions the modelled code raises; `Exc.isAuthError` is the `except AuthError` test.
* `pyInt`: the built-in `int`, on every JSON value.
* `Json.get`, `Json.pyIn`, `Json.index`, `Json.pyList`, `Json.items`: the container protocol.
-/

namespace Synapse

/-- A decoded JSON value.  `float` is a finite float, `nonfinite` one of `NaN` (`true`) and `±Infinity` (`false`).
The keys of an `obj` are meant to be distinct: lookups see the first occurrence. -/
inductive Json where
  | null
  | bool (b : Bool)
  | int (n : Int)
  | float (q : Rat)
  | nonfinite (nan : Bool)
  | str (s : String)
  | arr (xs : List Json)
  | obj (kvs : List (String × Json))
  deriving Repr, Inhabited

/-- A JSON object, as the contents of an event are. -/
abbrev JsonDict := List (String × Json)

/-- A piece of a formatted message: literal text, or a hole filled with `str(v)` or `repr(v)`. -/
inductive Part where
  | text (s : String)
  | str (v : Json)
  | repr (v : Json)
  deriving Repr, Inhabited

abbrev Msg := List Part

/-- The values of `Codes` that the auth rules use. -/
inductive Code where
  | unknown
  | forbidden
  | badJson
  | invalidParam
  | notJoined
  | alreadyJoined
  | insufficientPower
  deriving Repr, DecidableEq, Inhabited

/-- The exceptions of the modelled code.  `AuthError` and `UnstableSpecAuthError` are subclasses of `SynapseError`;
the latter is also one of `AuthError`. -/
inductive Exc where
  | synapseError (code : ℕ) (msg : Msg) (errcode : Code)
  | authError (code : ℕ) (msg : Msg) (errcode : Code)
  | unstableSpecAuthError (code : ℕ) (msg : Msg) (errcode previousErrcode : Code)
  | exception (msg : Msg)
  | keyError (key : Json)
  | indexError
  | typeError
  | valueError
  | overflowError
  | attributeError (name : String)
  | assertionError
  /-- `psycopg2.ProgrammingError`: the database does not accept the SQL. -/
  | programmingError
  deriving Repr, Inhabited

namespace Exc

/-- `except AuthError` catches the exception. -/
def isAuthError : Exc → Bool
  | authError .. => true
  | unstableSpecAuthError .. => true
  | _ => false

/-- `AuthError(code, msg)`. -/
def auth (code : ℕ) (msg : Msg) : Exc := authError code msg .forbidden

/-- `UnstableSpecAuthError(code, msg, errcode)`. -/
def unstable (code : ℕ) (msg : Msg) (errcode : Code) : Exc := unstableSpecAuthError code msg errcode .forbidden

/-- `SynapseError(code, msg)`. -/
def synapse (code : ℕ) (msg : Msg) : Exc := synapseError code msg .unknown

end Exc

theorem exc_bind_ok {ε α β : Type} {m : Except ε α} {k : α → Except ε β} {r : β} (h : (m >>= k) = .ok r) :
    ∃ a, m = .ok a ∧ k a = .ok r := by
  cases m with
  | error e => cases h
  | ok a => exact ⟨a, rfl, h⟩

theorem exc_elim_ok {ε α : Type} {o : Option α} {e : ε} {a : α} :
    (o.elim (throw e) pure : Except ε α) = .ok a ↔ o = some a := by
  cases o with
  | none => exact ⟨nofun, nofun⟩
  | some b => exact ⟨fun h => congrArg some (Except.ok.inj h), fun h => congrArg Except.ok (Option.some.inj h)⟩

theorem exc_isOk_iff {α : Type} {x : Except Exc α} : x.isOk = true ↔ ∃ a, x = .ok a := by
  cases x with
  | error | ok => simp [Except.isOk, Except.toBool]

/-! ## `int(v)` -/

/-- The digit zero of every Unicode decimal block. -/
def decimalZeros : List ℕ :=
  [0x30, 0x660, 0x6f0, 0x7c0, 0x966, 0x9e6, 0xa66, 0xae6, 0xb66, 0xbe6, 0xc66, 0xce6, 0xd66, 0xde6, 0xe50, 0xed0,
    0xf20, 0x1040, 0x1090, 0x17e0, 0x1810, 0x1946, 0x19d0, 0x1a80, 0x1a90, 0x1b50, 0x1bb0, 0x1c40, 0x1c50, 0xa620,
    0xa8d0, 0xa900, 0xa9d0, 0xa9f0, 0xaa50, 0xabf0, 0xff10, 0x104a0, 0x10d30, 0x11066, 0x110f0, 0x11136, 0x111d0,
    0x112f0, 0x11450, 0x114d0, 0x11650, 0x116c0, 0x11730, 0x118e0, 0x11950, 0x11c50, 0x11d50, 0x11da0, 0x16a60,
    0x16ac0, 0x16b50, 0x1d7ce, 0x1d7d8, 0x1d7e2, 0x1d7ec, 0x1d7f6, 0x1e140, 0x1e2f0, 0x1e950, 0x1fbf0]

def digitValue (c : Char) : Option ℕ :=
  (decimalZeros.find? fun z => z ≤ c.toNat && c.toNat < z + 10).map (c.toNat - ·)

/-- `str.isspace` of one character. -/
def isSpace (c : Char) : Bool :=
  let n := c.toNat
  (0x9 ≤ n && n ≤ 0xd) || (0x1c ≤ n && n ≤ 0x20) || n == 0x85 || n == 0xa0 || n == 0x1680 ||
    (0x2000 ≤ n && n ≤ 0x200a) || n == 0x2028 || n == 0x2029 || n == 0x202f || n == 0x205f || n == 0x3000

/-- Digits, with at most one underscore between two of them. -/
def decDigits : List Char → Option (List ℕ)
  | [] => none
  | [c] => (digitValue c).map ([·])
  | c :: '_' :: cs => do return (← digitValue c) :: (← decDigits cs)
  | c :: cs => do return (← digitValue c) :: (← decDigits cs)

/-- The longest decimal literal `int` accepts. -/
def maxStrDigits : ℕ := 4300

/-- `int(s)` for a string. -/
def intOfStr (s : String) : Option Int :=
  let cs := ((s.toList.dropWhile isSpace).reverse.dropWhile isSpace).reverse
  let value (cs : List Char) : Option Int := do
    let ds ← decDigits cs
    if ds.length ≤ maxStrDigits then some (ds.foldl (fun n d => 10 * n + d) 0 : ℕ) else none
  match cs with
  | '-' :: cs => (value cs).map (- ·)
  | '+' :: cs => value cs
  | cs => value cs

/-- The built-in `int`: floats are truncated towards zero, strings are parsed, containers and `None` are refused. -/
def pyInt : Json → Except Exc Int
  | .null => throw .typeError
  | .bool b => pure (if b then 1 else 0)
  | .int n => pure n
  | .float q => pure (q.num.tdiv q.den)
  | .nonfinite nan => throw (if nan then .valueError else .overflowError)
  | .str s => (intOfStr s).elim (throw .valueError) pure
  | .arr _ => throw .typeError
  | .obj _ => throw .typeError

example : pyInt (.str " -1_0\n") = .ok (-10) := by rfl

/-! ## Containers -/

namespace Json

/-- `v is None`. -/
def isNone : Json → Bool
  | .null => true
  | _ => false

/-- `v == s` for a string `s`. -/
def eqStr (v : Json) (s : String) : Bool :=
  match v with
  | .str t => t == s
  | _ => false

/-- `type(v) is int`: booleans are excluded. -/
def isInt : Json → Bool
  | .int _ => true
  | _ => false

/-- The value can be a dict key or a set member. -/
def hashable : Json → Bool
  | .arr _ => false
  | .obj _ => false
  | _ => true

/-- The number a numeric value compares as. -/
def num? : Json → Option Rat
  | .bool b => some (if b then 1 else 0)
  | .int n => some n
  | .float q => some q
  | _ => none

/-- `x == y` for hashable `x`: numbers compare by value across `bool`, `int` and `float`. -/
def scalarEq (x y : Json) : Bool :=
  match x, y with
  | .null, .null => true
  | .str s, .str t => s == t
  | .nonfinite a, .nonfinite b => a == b
  | x, y => match x.num?, y.num? with
    | some a, some b => a == b
    | _, _ => false

/-- `v.get(key, default)`; only a dict has the method. -/
def get (v : Json) (key : String) (default : Json) : Except Exc Json :=
  match v with
  | .obj kvs => pure ((kvs.lookup key).getD default)
  | _ => throw (.attributeError "get")

/-- `list(v)`. -/
def pyList : Json → Except Exc (List Json)
  | .arr xs => pure xs
  | .obj kvs => pure (kvs.map fun kv => .str kv.1)
  | .str s => pure (s.toList.map fun c => .str (String.singleton c))
  | _ => throw .typeError

/-- `v.items()`. -/
def items : Json → Except Exc JsonDict
  | .obj kvs => pure kvs
  | _ => throw (.attributeError "items")

/-- `v.keys()`. -/
def keys : Json → Except Exc (List String)
  | .obj kvs => pure (kvs.map Prod.fst)
  | _ => throw (.attributeError "keys")

/-- `needle` occurs in `hay` as a contiguous block. -/
def infixOf (needle : List Char) : List Char → Bool
  | [] => needle.isEmpty
  | c :: cs => needle.isPrefixOf (c :: cs) || infixOf needle cs

/-- `x in v` for hashable `x`. -/
def pyIn (x v : Json) : Except Exc Bool :=
  match v with
  | .obj kvs => match x with
    | .str s => pure (kvs.lookup s).isSome
    | _ => pure false
  | .arr xs => pure (xs.any x.scalarEq)
  | .str t => match x with
    | .str s => pure (infixOf s.toList t.toList)
    | _ => throw .typeError
  | _ => throw .typeError

/-- The list position that the index `x` names in a sequence of length `n`. -/
def seqIndex (x : Json) (n : ℕ) : Except Exc ℕ := do
  let i ← match x with
    | .int i => pure i
    | .bool b => pure (if b then 1 else 0)
    | _ => throw Exc.typeError
  if 0 ≤ i ∧ i < n then pure i.toNat
  else if i < 0 ∧ -(n : Int) ≤ i then pure (i + n).toNat
  else throw .indexError

/-- `v[x]` for hashable `x`. -/
def index (v x : Json) : Except Exc Json :=
  match v with
  | .obj kvs => match x with
    | .str s => (kvs.lookup s).elim (throw (.keyError x)) pure
    | _ => throw (.keyError x)
  | .arr xs => do
    let i ← seqIndex x xs.length
    (xs[i]?).elim (throw .indexError) pure
  | .str s => do
    let i ← seqIndex x s.length
    (s.toList[i]?).elim (throw .indexError) fun c => pure (.str (String.singleton c))
  | _ => throw .typeError

/-- The distinct members of a list of hashable values, as `set(xs)` keeps them. -/
def pySet (xs : List Json) : Except Exc (List Json) :=
  if xs.all hashable then
    pure (xs.foldl (fun acc x => if acc.any (scalarEq x) then acc else acc ++ [x]) [])
  else throw .typeError

end Json

end Synapse
