import ZipMount.Deflate.CodeTree

/-!
# Decoding deflate streams

A deflate stream is a run of blocks, the last one marked.  A block is either stored, a counted run
of bytes, or a run of items coded with two prefix codes, which are fixed or described at the start
of the block.  An item is a byte, a copy of earlier output, or the end of the block.

`Deflate.decode` reads the stream at the front of its input.  Its outcome is one of three: the whole
output together with the bytes after the stream; the part of the output that can be decoded before
the input runs out; or nothing, when the stream is damaged.
-/

namespace ZipMount

namespace Deflate

/-- What is read from a coded block. -/
inductive Item
  | literal (b : UInt8)
  | copy (length distance : Nat)
  | endOfBlock
  deriving DecidableEq, Repr

/-- The least length that each length symbol stands for, and the number of bits that are added. -/
def lengthRanges : Array (Nat × Nat) :=
  #[(3, 0), (4, 0), (5, 0), (6, 0), (7, 0), (8, 0), (9, 0), (10, 0), (11, 1), (13, 1), (15, 1),
    (17, 1), (19, 2), (23, 2), (27, 2), (31, 2), (35, 3), (43, 3), (51, 3), (59, 3), (67, 4),
    (83, 4), (99, 4), (115, 4), (131, 5), (163, 5), (195, 5), (227, 5), (258, 0)]

/-- The least distance that each distance symbol stands for, and the number of bits that are
added. -/
def distanceRanges : Array (Nat × Nat) :=
  #[(1, 0), (2, 0), (3, 0), (4, 0), (5, 1), (7, 1), (9, 2), (13, 2), (17, 3), (25, 3), (33, 4),
    (49, 4), (65, 5), (97, 5), (129, 6), (193, 6), (257, 7), (385, 7), (513, 8), (769, 8),
    (1025, 9), (1537, 9), (2049, 10), (3073, 10), (4097, 11), (6145, 11), (8193, 12),
    (12289, 12), (16385, 13), (24577, 13)]

/-- The number that a symbol of a range table and the bits after it stand for. -/
def ranged (ranges : Array (Nat × Nat)) (symbol : Nat) : BitReader Nat :=
  match ranges[symbol]? with
  | none => corrupt
  | some (least, extra) => do return least + (← bits extra)

/-- The codes of a block. -/
structure Codes where
  literals : CodeTree
  distances : CodeTree

/-- The next item of a coded block. -/
def item (codes : Codes) : BitReader Item := do
  let symbol ← codes.literals.decode
  if symbol < 256 then return .literal (UInt8.ofNat symbol)
  else if symbol = 256 then return .endOfBlock
  else
    let length ← ranged lengthRanges (symbol - 257)
    let distance ← ranged distanceRanges (← codes.distances.decode)
    return .copy length distance

/-- The byte of the output that is `distance` bytes before its end; what would lie before the output
counts as zero. -/
def lookBack (distance : Nat) (out : Array UInt8) : UInt8 :=
  if distance ≤ out.size then out[out.size - distance]?.getD 0 else 0

/-- The output with `length` bytes copied to its end from `distance` bytes before it; the copy may
overlap what it writes. -/
def copyBack (distance : Nat) : Nat → Array UInt8 → Array UInt8
  | 0, out => out
  | length + 1, out => copyBack distance length (out.push (lookBack distance out))

/-- Why a block ended early, and the output up to there. -/
abbrev Stop := Halt × Array UInt8

/-- Reads items up to the end of the block, at most `fuel` of them, and adds to the output what they
stand for. -/
def items (codes : Codes) : Nat → BitCursor → Array UInt8 → Except Stop (BitCursor × Array UInt8)
  | 0, _, out => .error (.starved, out)
  | fuel + 1, cursor, out =>
    match item codes cursor with
    | .error halt => .error (halt, out)
    | .ok (.literal b, cursor) => items codes fuel cursor (out.push b)
    | .ok (.endOfBlock, cursor) => .ok (cursor, out)
    | .ok (.copy length distance, cursor) =>
      items codes fuel cursor (copyBack distance length out)

/-- The codes of a block that does not describe its own. -/
def fixedCodes : Codes where
  literals := CodeTree.ofLengths
    (List.replicate 144 8 ++ List.replicate 112 9 ++ List.replicate 24 7 ++ List.replicate 8 8)
  distances := CodeTree.ofLengths (List.replicate 32 5)

/-- The order in which the code lengths of the code-length code are written. -/
def lengthOrder : List Nat :=
  [16, 17, 18, 0, 8, 7, 9, 6, 10, 5, 11, 4, 12, 3, 13, 2, 14, 1, 15]

/-- Reads `n` numbers of three bits. -/
def triples : Nat → BitReader (List Nat)
  | 0 => pure []
  | n + 1 => do
    let first ← bits 3
    let others ← triples n
    return first :: others

/-- Reads code lengths until there are `count`, in at most `fuel` steps: a length itself, a repeat
of the last one, or a run of zeros. -/
def codeLengths (tree : CodeTree) (count : Nat) : Nat → Array Nat → BitReader (List Nat)
  | 0, lengths => if lengths.size = count then pure lengths.toList else corrupt
  | fuel + 1, lengths =>
    if count ≤ lengths.size then
      if lengths.size = count then pure lengths.toList else corrupt
    else do
      let symbol ← tree.decode
      if symbol < 16 then codeLengths tree count fuel (lengths.push symbol)
      else if symbol = 16 then
        match lengths.back? with
        | none => corrupt
        | some last =>
          let extra ← bits 2
          codeLengths tree count fuel (lengths ++ Array.replicate (3 + extra) last)
      else if symbol = 17 then
        let extra ← bits 3
        codeLengths tree count fuel (lengths ++ Array.replicate (3 + extra) 0)
      else
        let extra ← bits 7
        codeLengths tree count fuel (lengths ++ Array.replicate (11 + extra) 0)

/-- Reads the description of a block's codes. -/
def describedCodes : BitReader Codes := do
  let literalCount := 257 + (← bits 5)
  let distanceCount := 1 + (← bits 5)
  let lengthCount := 4 + (← bits 4)
  if 286 < literalCount ∨ 30 < distanceCount then corrupt
  else
    let written := lengthOrder.zip (← triples lengthCount)
    let outer := (List.range 19).map fun symbol => (written.lookup symbol).getD 0
    match CodeTree.ofLengths? false outer with
    | none => corrupt
    | some tree =>
      let count := literalCount + distanceCount
      let lengths ← codeLengths tree count count #[]
      match CodeTree.ofLengths? true (lengths.take literalCount),
          CodeTree.ofLengths? true (lengths.drop literalCount) with
      | some literals, some distances => return { literals, distances }
      | _, _ => corrupt

/-- The length of a stored block; it is written twice, the second time with all bits inverted. -/
def storedLength : BitReader Nat := do
  align
  let length ← wholeField 2
  let inverse ← wholeField 2
  if length + inverse = 0xFFFF then return length else corrupt

/-- Reads a stored block and adds its bytes to the output, as many as there are. -/
def storedBlock (cursor : BitCursor) (out : Array UInt8) :
    Except Stop (BitCursor × Array UInt8) :=
  match storedLength cursor with
  | .error halt => .error (halt, out)
  | .ok (length, cursor) =>
    let front := cursor.rest.take length
    if front.length = length then .ok (⟨[], cursor.rest.drop length⟩, out ++ front.toArray)
    else .error (.starved, out ++ front.toArray)

/-- What stands at the start of a block: whether it is the last one, and its kind. -/
def blockHeader : BitReader (Bool × Nat) := do
  let last ← bit
  let kind ← bits 2
  return (last, kind)

/-- Reads the block of the given kind after its header and adds its output. -/
def blockBody (fuel : Nat) (kind : Nat) (cursor : BitCursor) (out : Array UInt8) :
    Except Stop (BitCursor × Array UInt8) :=
  match kind with
  | 0 => storedBlock cursor out
  | 1 => items fixedCodes fuel cursor out
  | 2 =>
    match describedCodes cursor with
    | .error halt => .error (halt, out)
    | .ok (codes, cursor) => items codes fuel cursor out
  | _ => .error (.corrupt, out)

/-- The outcome of decoding. -/
inductive Outcome
  /-- The output of a whole stream, and the bytes after it. -/
  | complete (output rest : Bytes)
  /-- What can be decoded before the input runs out. -/
  | cutOff (output : Bytes)
  /-- The stream is damaged. -/
  | corrupt
  deriving DecidableEq, Repr

/-- The outcome when a block ends early. -/
def Outcome.ofStop : Stop → Outcome
  | (.starved, out) => .cutOff out.toList
  | (.corrupt, _) => .corrupt

/-- Reads blocks up to the last one, at most `fuel` of them and of items in each. -/
def blocks (limit : Nat) : Nat → BitCursor → Array UInt8 → Outcome
  | 0, _, out => .cutOff out.toList
  | fuel + 1, cursor, out =>
    match blockHeader cursor with
    | .error halt => .ofStop (halt, out)
    | .ok ((last, kind), cursor) =>
      match blockBody limit kind cursor out with
      | .error stop => .ofStop stop
      | .ok (cursor, out) =>
        if last then .complete out.toList cursor.rest else blocks limit fuel cursor out

/-- Decodes the deflate stream at the front of the input.  Every block and every item takes at least
one bit, so the number of bits bounds both. -/
def decode (input : Bytes) : Outcome :=
  let cursor := BitCursor.start input
  blocks (cursor.unread + 1) (cursor.unread + 1) cursor #[]

end Deflate

end ZipMount
