import OfflineCache.Text.Utf8

/-! SHA-256 on byte lists. The chaining value is a vector of eight words, so a digest has 32 bytes
by its type. -/

namespace OfflineCache.Digest.Sha256

abbrev State := Vector UInt32 8

def initial : State :=
  #v[0x6a09e667, 0xbb67ae85, 0x3c6ef372, 0xa54ff53a, 0x510e527f, 0x9b05688c, 0x1f83d9ab, 0x5be0cd19]

def roundConstants : List UInt32 :=
  [0x428a2f98, 0x71374491, 0xb5c0fbcf, 0xe9b5dba5, 0x3956c25b, 0x59f111f1, 0x923f82a4, 0xab1c5ed5,
   0xd807aa98, 0x12835b01, 0x243185be, 0x550c7dc3, 0x72be5d74, 0x80deb1fe, 0x9bdc06a7, 0xc19bf174,
   0xe49b69c1, 0xefbe4786, 0x0fc19dc6, 0x240ca1cc, 0x2de92c6f, 0x4a7484aa, 0x5cb0a9dc, 0x76f988da,
   0x983e5152, 0xa831c66d, 0xb00327c8, 0xbf597fc7, 0xc6e00bf3, 0xd5a79147, 0x06ca6351, 0x14292967,
   0x27b70a85, 0x2e1b2138, 0x4d2c6dfc, 0x53380d13, 0x650a7354, 0x766a0abb, 0x81c2c92e, 0x92722c85,
   0xa2bfe8a1, 0xa81a664b, 0xc24b8b70, 0xc76c51a3, 0xd192e819, 0xd6990624, 0xf40e3585, 0x106aa070,
   0x19a4c116, 0x1e376c08, 0x2748774c, 0x34b0bcb5, 0x391c0cb3, 0x4ed8aa4a, 0x5b9cca4f, 0x682e6ff3,
   0x748f82ee, 0x78a5636f, 0x84c87814, 0x8cc70208, 0x90befffa, 0xa4506ceb, 0xbef9a3f7, 0xc67178f2]

def rotateRight (x : UInt32) (n : UInt32) : UInt32 := (x >>> n) ||| (x <<< (32 - n))

def wordOfBytes (bs : Bytes) : UInt32 :=
  bs.foldl (fun w b => (w <<< 8) ||| b.toUInt32) 0

def bytesOfWord (w : UInt32) : Bytes :=
  [(w >>> 24).toUInt8, (w >>> 16).toUInt8, (w >>> 8).toUInt8, w.toUInt8]

/-- The message, a one bit, zeros up to eight bytes below a multiple of 64, and the bit length. -/
def pad (message : Bytes) : Bytes :=
  let n := message.length
  let zeros := (119 - n % 64) % 64
  message ++ 0x80 :: List.replicate zeros 0 ++
    (List.range 8).map fun i => UInt8.ofNat (n * 8 / Nat.pow 256 (7 - i))

/-- The sixteen words of a block and the forty-eight computed from them. -/
def schedule (block : Bytes) : Array UInt32 :=
  let first := (List.range 16).map fun i => wordOfBytes ((block.drop (4 * i)).take 4)
  (List.range 48).foldl (fun (w : Array UInt32) i =>
    let a := w[i + 1]?.getD 0
    let b := w[i + 14]?.getD 0
    let s0 := rotateRight a 7 ^^^ rotateRight a 18 ^^^ (a >>> 3)
    let s1 := rotateRight b 17 ^^^ rotateRight b 19 ^^^ (b >>> 10)
    w.push (w[i]?.getD 0 + s0 + w[i + 9]?.getD 0 + s1)) first.toArray

/-- The words of a chaining value, which is eight words in each of the SHA-2 digests. -/
def words {α : Type} (s : Vector α 8) : α × α × α × α × α × α × α × α :=
  (s[0], s[1], s[2], s[3], s[4], s[5], s[6], s[7])

def round (s : State) (kw : UInt32 × UInt32) : State :=
  let (a, b, c, d, e, f, g, h) := words s
  let s1 := rotateRight e 6 ^^^ rotateRight e 11 ^^^ rotateRight e 25
  let choice := (e &&& f) ^^^ (~~~e &&& g)
  let t1 := h + s1 + choice + kw.1 + kw.2
  let s0 := rotateRight a 2 ^^^ rotateRight a 13 ^^^ rotateRight a 22
  let majority := (a &&& b) ^^^ (a &&& c) ^^^ (b &&& c)
  #v[t1 + (s0 + majority), a, b, c, d + t1, e, f, g]

def compress (s : State) (block : Bytes) : State :=
  let out := (roundConstants.zip (schedule block).toList).foldl round s
  Vector.zipWith (· + ·) s out

def blocks (n : Nat) : Nat → Bytes → List Bytes
  | 0, _ => []
  | k + 1, bs => bs.take n :: blocks n k (bs.drop n)

def digest (message : Bytes) : Bytes :=
  let padded := pad message
  ((blocks 64 (padded.length / 64) padded).foldl compress initial).toList.flatMap bytesOfWord

theorem length_digest (message : Bytes) : (digest message).length = 32 := by
  have (l : List UInt32) : (l.flatMap bytesOfWord).length = 4 * l.length := by
    induction l with
    | nil => rfl
    | cons w l ih => simp only [List.flatMap_cons, List.length_append, ih, List.length_cons]; simp [bytesOfWord]; omega
  simp [digest, this]

end OfflineCache.Digest.Sha256
