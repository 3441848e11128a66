import TemplateCompiler.Digest.Sha256
import TemplateCompiler.Number.Double

/-!
# Packed values

The binary form of values that MessagePack describes: a byte that says what
follows, a length where there is one, and the content. `Packed.encode` writes
it. Numbers are always written at full width, and the keys of a map in their
order, so a value has one encoding only.
-/

namespace TemplateCompiler

attribute [local instance (2000)] instPowNat

/-- A value with a packed form. -/
inductive Packed where
  | nil
  | bool (value : Bool)
  /-- An integer of 64 bits. -/
  | int (value : Int)
  /-- A natural number of 16 bits. -/
  | short (value : Nat)
  | double (value : Double)
  | text (value : Bytes)
  | binary (value : Bytes)
  | array (items : List Packed)
  /-- A map. Its order does not count. -/
  | map (entries : List (Bytes × Packed))
  /-- A map that is written in the order of its entries. -/
  | record (entries : List (Bytes × Packed))
deriving Repr, Inhabited

namespace Packed

/-- A length of a kind of value: in the code itself if it is below `small`,
else in the bytes after a code of its own. -/
def head (small : Nat) (fixed : UInt8) (byte? : Option UInt8) (two four : UInt8) (n : Nat) :
    Bytes :=
  if n < small then [fixed + UInt8.ofNat n]
  else
    match byte? with
    | some one =>
      if n < 256 then one :: Bytes.bigEndian 1 n
      else if n < 65536 then two :: Bytes.bigEndian 2 n
      else four :: Bytes.bigEndian 4 n
    | none =>
      if n < 65536 then two :: Bytes.bigEndian 2 n else four :: Bytes.bigEndian 4 n

def encodeText (bs : Bytes) : Bytes := head 32 0xa0 (some 0xd9) 0xda 0xdb bs.length ++ bs

def encodeBinary (bs : Bytes) : Bytes := head 0 0 (some 0xc4) 0xc5 0xc6 bs.length ++ bs

def arrayHead (n : Nat) : Bytes := head 16 0x90 none 0xdc 0xdd n

def mapHead (n : Nat) : Bytes := head 16 0x80 none 0xde 0xdf n

/-- The entries of a map, each a key and the packed form of its value. -/
def joinEntries (entries : List (Bytes × Bytes)) : Bytes :=
  entries.flatMap fun e => encodeText e.1 ++ e.2

def sortEntries (entries : List (Bytes × Bytes)) : List (Bytes × Bytes) :=
  entries.mergeSort fun a b => Bytes.le a.1 b.1

mutual

def encode : Packed → Bytes
  | .nil => [0xc0]
  | .bool false => [0xc2]
  | .bool true => [0xc3]
  | .int value => 0xd3 :: Bytes.bigEndian 8 (value % 2 ^ (64 : Nat)).toNat
  | .short value => 0xcd :: Bytes.bigEndian 2 value
  | .double value => 0xcb :: Bytes.bigEndian 8 value.bits.toNat
  | .text value => encodeText value
  | .binary value => encodeBinary value
  | .array items => arrayHead items.length ++ (encodeItems items).flatten
  | .map entries =>
    mapHead entries.length ++ joinEntries (sortEntries (encodeEntries entries))
  | .record entries => mapHead entries.length ++ joinEntries (encodeEntries entries)

def encodeItems : List Packed → List Bytes
  | [] => []
  | item :: items => item.encode :: encodeItems items

def encodeEntries : List (Bytes × Packed) → List (Bytes × Bytes)
  | [] => []
  | (key, value) :: entries => (key, value.encode) :: encodeEntries entries

end

def texts? : Option (List Bytes) → Packed
  | none => .nil
  | some items => .array (items.map .text)

end Packed

end TemplateCompiler
