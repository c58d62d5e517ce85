import Mathlib.Algebra.Group.Nat.Defs

/-!
# `genHash`

`genHash` は文字列の SHA-1 を小文字の 16 進 40 桁で返す。
-/

namespace Dynamo

namespace Sha1

/-- 32 bit の左回転。 -/
def rotl (n x : Nat) : Nat := (x <<< n ||| x >>> (32 - n)) % 2 ^ 32

def add (x y : Nat) : Nat := (x + y) % 2 ^ 32

/-- `n` byte の big endian。 -/
def bigEndian : Nat → Nat → List Nat
  | 0, _ => []
  | n + 1, x => bigEndian n (x / 256) ++ [x % 256]

/-- 0x80、0、bit 数を足して長さを 64 の倍数にする。 -/
def pad (bytes : List Nat) : List Nat :=
  bytes ++ 0x80 :: List.replicate ((119 - bytes.length % 64) % 64) 0 ++
    bigEndian 8 (8 * bytes.length)

/-- 4 byte ずつ語にする。 -/
def toWords : List Nat → List Nat
  | a :: b :: c :: d :: rest => (a <<< 24 ||| b <<< 16 ||| c <<< 8 ||| d) :: toWords rest
  | _ => []

/-- 語を 16 個ずつ `n` 個の塊に分ける。 -/
def chunks : Nat → List Nat → List (List Nat)
  | 0, _ => []
  | n + 1, l => l.take 16 :: chunks n (l.drop 16)

/-- 塊の語を `n` 個増やす。 -/
def extend : Nat → List Nat → List Nat
  | 0, w => w
  | n + 1, w => extend n (rotl 1 (w.getD 2 0 ^^^ w.getD 7 0 ^^^ w.getD 13 0 ^^^ w.getD 15 0) :: w)

/-- 五つの語からなる状態。 -/
structure Digest where
  a : Nat
  b : Nat
  c : Nat
  d : Nat
  e : Nat

def initial : Digest := ⟨0x67452301, 0xefcdab89, 0x98badcfe, 0x10325476, 0xc3d2e1f0⟩

/-- `t` 番目の段の関数と定数。 -/
def mix (t : Nat) (s : Digest) : Nat × Nat :=
  if t < 20 then (s.b &&& s.c ||| (2 ^ 32 - 1 - s.b) &&& s.d, 0x5a827999)
  else if t < 40 then (s.b ^^^ s.c ^^^ s.d, 0x6ed9eba1)
  else if t < 60 then (s.b &&& s.c ||| s.b &&& s.d ||| s.c &&& s.d, 0x8f1bbcdc)
  else (s.b ^^^ s.c ^^^ s.d, 0xca62c1d6)

def rounds : Nat → List Nat → Digest → Digest
  | _, [], s => s
  | t, w :: ws, s =>
    let (f, k) := mix t s
    rounds (t + 1) ws ⟨add (add (add (add (rotl 5 s.a) f) s.e) k) w, s.a, rotl 30 s.b, s.c, s.d⟩

def compress (s : Digest) (block : List Nat) : Digest :=
  let r := rounds 0 (extend 64 block.reverse).reverse s
  ⟨add s.a r.a, add s.b r.b, add s.c r.c, add s.d r.d, add s.e r.e⟩

def digest (bytes : List Nat) : List Nat :=
  let padded := pad bytes
  let s := (chunks (padded.length / 64) (toWords padded)).foldl compress initial
  [s.a, s.b, s.c, s.d, s.e].flatMap (bigEndian 4)

end Sha1

def getBytes (s : String) : List Nat := s.toList.flatMap fun c => (String.utf8EncodeChar c).map UInt8.toNat

/-- `%02x`。 -/
def hexByte (b : Nat) : List Char := [Nat.digitChar (b / 16), Nat.digitChar (b % 16)]

def genHash (input : String) : String :=
  String.ofList ((Sha1.digest (getBytes input)).flatMap hexByte)

end Dynamo
