import OfflineCache.Digest.Crc32

/-! The gzip form of a sequence of bytes. The content is stored in blocks as it is. -/

namespace OfflineCache.Archive.Gzip

/-- The least significant byte first. -/
def littleEndian : Nat → Nat → Bytes
  | 0, _ => []
  | width + 1, n => UInt8.ofNat n :: littleEndian width (n / 256)

def blockLength : Nat := 65535

def block (last : Bool) (b : Bytes) : Bytes :=
  (if last then 1 else 0) :: littleEndian 2 b.length ++ littleEndian 2 (65535 - b.length) ++ b

/-- There is always a last block, which may be empty. -/
def blocks (b : Bytes) : Bytes :=
  if b.length ≤ blockLength then block true b
  else block false (b.take blockLength) ++ blocks (b.drop blockLength)
termination_by b.length
decreasing_by simp only [List.length_drop, blockLength] at *; omega

def pack (b : Bytes) : Bytes :=
  [0x1f, 0x8b, 8, 0, 0, 0, 0, 0, 0, 0xff] ++ blocks b ++
    littleEndian 4 (Digest.Crc32.compute b).toNat ++ littleEndian 4 b.length

end OfflineCache.Archive.Gzip
