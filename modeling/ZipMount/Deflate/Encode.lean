import ZipMount.Bytes

/-!
# Writing deflate streams

Data is written as a run of stored blocks, each of the largest size but the last.  Empty data is one
empty block.
-/

namespace ZipMount

namespace Deflate

/-- The greatest length of a stored block. -/
def maxStored : Nat := 0xFFFF

/-- A stored block, marked if it is the last one. -/
def encodeBlock (last : Bool) (data : Bytes) : Bytes :=
  UInt8.ofNat last.toNat :: (Bytes.le 2 data.length ++ Bytes.le 2 (0xFFFF - data.length) ++ data)

/-- The given number of blocks of the largest size, then a last block with the remaining data. -/
def encodeBlocks : Nat → Bytes → Bytes
  | 0, data => encodeBlock true data
  | more + 1, data =>
    encodeBlock false (data.take maxStored) ++ encodeBlocks more (data.drop maxStored)

/-- A deflate stream whose output is the given data. -/
def encode (data : Bytes) : Bytes :=
  encodeBlocks ((data.length - 1) / maxStored) data

end Deflate

end ZipMount
