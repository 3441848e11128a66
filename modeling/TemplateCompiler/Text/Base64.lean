import TemplateCompiler.Text.Bytes

/-!
# Base 64

Three bytes are written as four digits of six bits each. A last group of one
or two bytes is filled up with equals signs.
-/

namespace TemplateCompiler.Base64

def alphabet : Bytes := "ABCDEFGHIJKLMNOPQRSTUVWXYZabcdefghijklmnopqrstuvwxyz0123456789+/"

/-- The digit for `n`, for `n` below 64. -/
def digit (n : Nat) : UInt8 := alphabet.getD n 0

def encode : Bytes → Bytes
  | [] => []
  | [a] => [digit (a.toNat / 4), digit (a.toNat % 4 * 16), Byte.equals, Byte.equals]
  | [a, b] =>
    [digit (a.toNat / 4), digit (a.toNat % 4 * 16 + b.toNat / 16), digit (b.toNat % 16 * 4),
      Byte.equals]
  | a :: b :: c :: rest =>
    digit (a.toNat / 4) :: digit (a.toNat % 4 * 16 + b.toNat / 16)
      :: digit (b.toNat % 16 * 4 + c.toNat / 64) :: digit (c.toNat % 64) :: encode rest

end TemplateCompiler.Base64
