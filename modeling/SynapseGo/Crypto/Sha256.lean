import Mathlib.Algebra.Group.Nat.Defs
import SynapseGo.Go.Strings

/-! SHA-256 and HMAC-SHA-256 on byte strings, as `crypto/sha256` and `crypto/hmac` compute them. -/
namespace SynapseGo.Crypto
open SynapseGo.Go (GoString)

/-- The round constants. -/
def roundConstants : List UInt32 :=
  [0x428a2f98, 0x71374491, 0xb5c0fbcf, 0xe9b5dba5, 0x3956c25b, 0x59f111f1, 0x923f82a4, 0xab1c5ed5,
    0xd807aa98, 0x12835b01, 0x243185be, 0x550c7dc3, 0x72be5d74, 0x80deb1fe, 0x9bdc06a7, 0xc19bf174,
    0xe49b69c1, 0xefbe4786, 0x0fc19dc6, 0x240ca1cc, 0x2de92c6f, 0x4a7484aa, 0x5cb0a9dc, 0x76f988da,
    0x983e5152, 0xa831c66d, 0xb00327c8, 0xbf597fc7, 0xc6e00bf3, 0xd5a79147, 0x06ca6351, 0x14292967,
    0x27b70a85, 0x2e1b2138, 0x4d2c6dfc, 0x53380d13, 0x650a7354, 0x766a0abb, 0x81c2c92e, 0x92722c85,
    0xa2bfe8a1, 0xa81a664b, 0xc24b8b70, 0xc76c51a3, 0xd192e819, 0xd6990624, 0xf40e3585, 0x106aa070,
    0x19a4c116, 0x1e376c08, 0x2748774c, 0x34b0bcb5, 0x391c0cb3, 0x4ed8aa4a, 0x5b9cca4f, 0x682e6ff3,
    0x748f82ee, 0x78a5636f, 0x84c87814, 0x8cc70208, 0x90befffa, 0xa4506ceb, 0xbef9a3f7, 0xc67178f2]

/-- The eight words of the chaining value. -/
structure Chain where
  a : UInt32
  b : UInt32
  c : UInt32
  d : UInt32
  e : UInt32
  f : UInt32
  g : UInt32
  h : UInt32

def initial : Chain :=
  ⟨0x6a09e667, 0xbb67ae85, 0x3c6ef372, 0xa54ff53a, 0x510e527f, 0x9b05688c, 0x1f83d9ab, 0x5be0cd19⟩

def rotateRight (x : UInt32) (n : UInt32) : UInt32 := x >>> n ||| x <<< (32 - n)

def smallSigma0 (x : UInt32) : UInt32 := rotateRight x 7 ^^^ rotateRight x 18 ^^^ x >>> 3
def smallSigma1 (x : UInt32) : UInt32 := rotateRight x 17 ^^^ rotateRight x 19 ^^^ x >>> 10
def bigSigma0 (x : UInt32) : UInt32 := rotateRight x 2 ^^^ rotateRight x 13 ^^^ rotateRight x 22
def bigSigma1 (x : UInt32) : UInt32 := rotateRight x 6 ^^^ rotateRight x 11 ^^^ rotateRight x 25
def choose (e f g : UInt32) : UInt32 := e &&& f ^^^ ~~~e &&& g
def majority (a b c : UInt32) : UInt32 := a &&& b ^^^ a &&& c ^^^ b &&& c

/-- The next `n` schedule words; `last` holds the sixteen before them, newest first. -/
def extendSchedule : ℕ → List UInt32 → List UInt32
  | 0, _ => []
  | n + 1, last =>
    let w := smallSigma1 (last.getD 1 0) + last.getD 6 0 + smallSigma0 (last.getD 14 0) + last.getD 15 0
    w :: extendSchedule n (w :: last.take 15)

def round (s : Chain) (kw : UInt32 × UInt32) : Chain :=
  let t₁ := s.h + bigSigma1 s.e + choose s.e s.f s.g + kw.1 + kw.2
  let t₂ := bigSigma0 s.a + majority s.a s.b s.c
  ⟨t₁ + t₂, s.a, s.b, s.c, s.d + t₁, s.e, s.f, s.g⟩

def compress (s : Chain) (words : List UInt32) : Chain :=
  let schedule := words ++ extendSchedule 48 words.reverse
  let r := (roundConstants.zip schedule).foldl round s
  ⟨s.a + r.a, s.b + r.b, s.c + r.c, s.d + r.d, s.e + r.e, s.f + r.f, s.g + r.g, s.h + r.h⟩

/-- The 64-bit message length in bits, big-endian. -/
def lengthBytes (n : ℕ) : GoString :=
  (List.range 8).map fun i => (n * 8 / 256 ^ (7 - i)).toUInt8

/-- The padded message: a length that is a multiple of 64. -/
def pad (message : GoString) : GoString :=
  message ++ 0x80 :: List.replicate ((119 - message.length % 64) % 64) 0 ++ lengthBytes message.length

def bigEndian (bytes : GoString) : UInt32 :=
  bytes.foldl (fun w b => w <<< 8 ||| b.toUInt32) 0

/-- The 32-bit words of a block sequence. -/
def words (bytes : GoString) : List UInt32 := (bytes.toChunks 4).map bigEndian

def wordBytes (w : UInt32) : GoString :=
  [(w >>> 24).toUInt8, (w >>> 16).toUInt8, (w >>> 8).toUInt8, w.toUInt8]

def sha256 (message : GoString) : GoString :=
  let s := ((words (pad message)).toChunks 16).foldl compress initial
  [s.a, s.b, s.c, s.d, s.e, s.f, s.g, s.h].flatMap wordBytes

/-- The key block: long keys are hashed, short ones padded with zeros. -/
def keyBlock (key : GoString) : GoString :=
  let key := if key.length > 64 then sha256 key else key
  key ++ List.replicate (64 - key.length) 0

def hmacSha256 (key message : GoString) : GoString :=
  let block := keyBlock key
  sha256 (block.map (· ^^^ 0x5c) ++ sha256 (block.map (· ^^^ 0x36) ++ message))

end SynapseGo.Crypto
