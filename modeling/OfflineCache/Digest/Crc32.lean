import OfflineCache.Text.Utf8

/-! The cyclic redundancy check of 32 bits that archives carry, a bit at a time. -/

namespace OfflineCache.Digest.Crc32

def polynomial : UInt32 := 0xedb88320

def shift (c : UInt32) : UInt32 :=
  if c &&& 1 = 1 then (c >>> 1) ^^^ polynomial else c >>> 1

def absorb (c : UInt32) (b : UInt8) : UInt32 :=
  shift (shift (shift (shift (shift (shift (shift (shift (c ^^^ b.toUInt32))))))))

def compute (bs : Bytes) : UInt32 := bs.foldl absorb 0xffffffff ^^^ 0xffffffff

end OfflineCache.Digest.Crc32
