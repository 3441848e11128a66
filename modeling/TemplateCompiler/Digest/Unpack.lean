import TemplateCompiler.Digest.Packed

/-!
# Reading packed values

A reader takes what it needs from the front of a byte sequence and leaves the
rest. It fails where the sequence ends too early or where a code cannot start
the value that is asked for. `nil` stands for an empty value of any kind.
-/

namespace TemplateCompiler

attribute [local instance (2000)] instPowNat

/-- Why packed bytes cannot be read. -/
inductive UnpackError where
  /-- The bytes end where a value or a length should start. -/
  | ended
  /-- The bytes end inside a value. -/
  | cutShort
  /-- A code that starts no map. -/
  | unexpectedCode (code : UInt8) (what : Bytes)
  /-- A code that starts no value of the kind asked for. -/
  | invalidCode (code : UInt8) (what : Bytes)
  /-- A code that starts no value at all. -/
  | unknownCode (code : UInt8)
  /-- An array in place of a record that has another number of entries. -/
  | arraySize
deriving DecidableEq, Repr, Inhabited

namespace UnpackError

/-- A code in base sixteen, without leading zeros. -/
def codeText (code : UInt8) : Bytes :=
  if code < 16 then [Byte.hexDigit code.toNat] else Bytes.hex 2 code.toNat

def message : UnpackError → Bytes
  | .ended => "EOF"
  | .cutShort => "unexpected EOF"
  | .unexpectedCode code what =>
    "msgpack: unexpected code=" ++ codeText code ++ " decoding " ++ what
  | .invalidCode code what => "msgpack: invalid code=" ++ codeText code ++ " decoding " ++ what
  | .unknownCode code => "msgpack: unknown code " ++ codeText code
  | .arraySize => "msgpack: number of fields in array-encoded struct has changed"

end UnpackError

abbrev Unpack := StateT Bytes (Except UnpackError)

namespace Unpack

def code : Unpack UInt8 := fun bs =>
  match bs with
  | [] => .error .ended
  | b :: rest => .ok (b, rest)

def take (n : Nat) : Unpack Bytes := fun bs =>
  if n == 0 then .ok ([], bs)
  else if bs.isEmpty then .error .ended
  else if bs.length < n then .error .cutShort
  else .ok (bs.take n, bs.drop n)

/-- A natural number of `width` bytes. -/
def nat (width : Nat) : Unpack Nat := return Bytes.ofBigEndian (← take width)

def int (width : Nat) : Unpack Int := do
  let n ← nat width
  pure (if n < 256 ^ width / 2 then (n : Int) else (n : Int) - (256 ^ width : Nat))

/-- The length of a map that starts with a code; `none` for `nil`. -/
def mapLength (c : UInt8) : Unpack (Option Nat) := do
  if c == 0xc0 then pure none
  else if 0x80 ≤ c && c ≤ 0x8f then pure (some (c.toNat % 16))
  else if c == 0xde then return some (← nat 2)
  else if c == 0xdf then return some (← nat 4)
  else throw (.unexpectedCode c "map length")

/-- The length of an array that starts with a code; `none` for `nil`. -/
def arrayLength (c : UInt8) : Unpack (Option Nat) := do
  if c == 0xc0 then pure none
  else if 0x90 ≤ c && c ≤ 0x9f then pure (some (c.toNat % 16))
  else if c == 0xdc then return some (← nat 2)
  else if c == 0xdd then return some (← nat 4)
  else throw (.invalidCode c "array length")

/-- The length of text or bytes that start with a code; `none` for `nil`. -/
def bytesLength (c : UInt8) : Unpack (Option Nat) := do
  if c == 0xc0 then pure none
  else if 0xa0 ≤ c && c ≤ 0xbf then pure (some (c.toNat % 32))
  else if c == 0xd9 || c == 0xc4 then return some (← nat 1)
  else if c == 0xda || c == 0xc5 then return some (← nat 2)
  else if c == 0xdb || c == 0xc6 then return some (← nat 4)
  else throw (.invalidCode c "string/bytes length")

/-- Text or bytes; `none` for `nil`. -/
def bytes? : Unpack (Option Bytes) := do
  match ← bytesLength (← code) with
  | none => pure none
  | some n => return some (← take n)

def text : Unpack Bytes := return (← bytes?).getD []

/-- Whether a code is a small number by itself. -/
def isSmall (c : UInt8) : Bool := c ≤ 0x7f || 0xe0 ≤ c

/-- An integer of any width, cut to 64 bits without a sign. -/
def word : Unpack Nat := do
  let c ← code
  let value : Int ←
    if c == 0xc0 then pure 0
    else if c ≤ 0x7f then pure c.toNat
    else if 0xe0 ≤ c then pure ((c.toNat : Int) - 256)
    else if c == 0xcc then pure (← nat 1)
    else if c == 0xd0 then int 1
    else if c == 0xcd then pure (← nat 2)
    else if c == 0xd1 then int 2
    else if c == 0xce then pure (← nat 4)
    else if c == 0xd2 then int 4
    else if c == 0xcf then pure (← nat 8)
    else if c == 0xd3 then int 8
    else throw (.invalidCode c "uint64")
  pure (value % 2 ^ (64 : Nat)).toNat

/-- Runs a reader `n` times, each time from the value that stood in its place,
or from `blank` where none did. -/
def refill {α : Type} (reader : α → Unpack α) (blank : α) : Nat → List α → Unpack (List α)
  | 0, _ => pure []
  | n + 1, places => return (← reader (places.headD blank)) :: (← refill reader blank n places.tail)

def times {α : Type} (reader : Unpack α) : Nat → Unpack (List α)
  | 0 => pure []
  | n + 1 => return (← reader) :: (← times reader n)

def array? {α : Type} (reader : Unpack α) : Unpack (Option (List α)) := do
  match ← arrayLength (← code) with
  | none => pure none
  | some n => return some (← times reader n)

/-- How many bytes follow a code that is not small, and how many values after
them. -/
def extent (c : UInt8) : Unpack Nat := do
  if 0x80 ≤ c && c ≤ 0x8f || c == 0xde || c == 0xdf then
    return 2 * (← mapLength c).getD 0
  else if 0x90 ≤ c && c ≤ 0x9f || c == 0xdc || c == 0xdd then
    return (← arrayLength c).getD 0
  else if c == 0xc0 || c == 0xc2 || c == 0xc3 then pure 0
  else if 0xa0 ≤ c && c ≤ 0xbf || 0xc4 ≤ c && c ≤ 0xc6 || 0xd9 ≤ c && c ≤ 0xdb then do
    let _ ← take ((← bytesLength c).getD 0)
    pure 0
  else if c == 0xcc || c == 0xd0 then do
    let _ ← take 1
    pure 0
  else if c == 0xcd || c == 0xd1 then do
    let _ ← take 2
    pure 0
  else if c == 0xce || c == 0xd2 || c == 0xca then do
    let _ ← take 4
    pure 0
  else if c == 0xcf || c == 0xd3 || c == 0xcb then do
    let _ ← take 8
    pure 0
  else if 0xd4 ≤ c && c ≤ 0xd8 then do
    let _ ← take (2 ^ (c.toNat - 0xd4) + 1)
    pure 0
  else if 0xc7 ≤ c && c ≤ 0xc9 then do
    let n ← nat (2 ^ (c.toNat - 0xc7))
    let _ ← take (n + 1)
    pure 0
  else throw (.unknownCode c)

/-- Passes over `pending` values. A value takes at least one byte, and the
values inside it are passed over after it. -/
def skip (pending : Nat) (bs : Bytes) : Except UnpackError (Unit × Bytes) :=
  match pending, bs with
  | 0, bs => .ok ((), bs)
  | _ + 1, [] => .error .ended
  | n + 1, c :: rest =>
    if isSmall c then skip n rest
    else
      match extent c rest with
      | .error e => .error e
      | .ok (inner, after) =>
        if after.length ≤ rest.length then skip (n + inner) after else .error .ended
termination_by bs.length
decreasing_by
  · simp
  · simp
    omega

/-- Adds the entry with the given key, whose value comes next, to a record.
`read` knows the keys; other values are passed over. -/
def entry {α : Type} (read : Bytes → Option (α → Unpack α)) (record : α) : Unpack α := do
  match read (← text) with
  | some reader => reader record
  | none => do
    skip 1
    pure record

/-- Reads `n` entries into a record. -/
def entries {α : Type} (read : Bytes → Option (α → Unpack α)) (record : α) : Nat → Unpack α
  | 0 => pure record
  | n + 1 => do entries read (← entry read record) n

/-- Reads the values of the given keys, in turn, into a record. -/
def positional {α : Type} (read : Bytes → Option (α → Unpack α)) (record : α) :
    List Bytes → Unpack α
  | [] => pure record
  | key :: keys => do
    match read key with
    | some reader => positional read (← reader record) keys
    | none => positional read record keys

/-- A record: a map from the names of its fields, or an array of all its
fields. What is not given stays as in `start`. `nil` and an empty array stand
for `blank`. -/
def record {α : Type} (keys : List Bytes) (read : Bytes → Option (α → Unpack α))
    (blank start : α) : Unpack α := do
  let c ← code
  if 0x90 ≤ c && c ≤ 0x9f || c == 0xdc || c == 0xdd then
    let size ← tryCatch (arrayLength c) fun _ => throw (.unexpectedCode c "map length")
    match size.getD 0 with
    | 0 => pure blank
    | n => if n == keys.length then positional read start keys else throw .arraySize
  else
    match ← mapLength c with
    | none => pure blank
    | some n => entries read start n

end Unpack

end TemplateCompiler
