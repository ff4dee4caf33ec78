import ZipMount.Deflate.BitCursor

/-!
# Code trees

A prefix code is a binary tree with symbols at its leaves: a symbol is decoded by walking down from
the root, one bit a step.  Deflate describes a code by the length of each symbol's code word; the
code words of one length follow each other in the order of the symbols, and shorter ones come before
longer ones.  In the tree this means that the leaves, from left to right, are the symbols ordered by
length and then by number, which is how `CodeTree.grow` builds it.
-/

namespace ZipMount

namespace Deflate

/-- A prefix code. -/
inductive CodeTree
  /-- No code word begins like this. -/
  | empty
  /-- A code word ends here. -/
  | leaf (symbol : Nat)
  /-- Code words go on with either bit. -/
  | node (zero one : CodeTree)
  deriving Repr

namespace CodeTree

/-- The longest code word that a code may have. -/
def maxLength : Nat := 15

/-- The symbol whose code word comes next. -/
def decode : CodeTree → BitReader Nat
  | empty => corrupt
  | leaf symbol => pure symbol
  | node zero one => do
    if ← bit then decode one else decode zero

/-- The used symbols with the lengths of their code words, ordered by length and then by symbol. -/
def ordered (lengths : List Nat) : List (Nat × Nat) :=
  (List.range maxLength).flatMap fun i =>
    (lengths.zipIdx.filter fun (len, _) => len = i + 1)

/-- The tree below a place `depth` steps down whose leaves are taken from the front of the ordered
symbols, and the symbols left over.  It goes down at most `fuel` steps. -/
def grow : Nat → Nat → List (Nat × Nat) → CodeTree × List (Nat × Nat)
  | _, _, [] => (empty, [])
  | 0, _, symbols => (empty, symbols)
  | fuel + 1, depth, (len, symbol) :: symbols =>
    if len = depth then (leaf symbol, symbols)
    else
      let (zero, after) := grow fuel (depth + 1) ((len, symbol) :: symbols)
      let (one, left) := grow fuel (depth + 1) after
      (node zero one, left)

/-- The share of all code words that the used symbols take up, in units of the smallest share. -/
def weight (lengths : List Nat) : Nat :=
  (lengths.map fun len => if len = 0 then 0 else 1 <<< (maxLength - len)).foldr Nat.add 0

/-- Whether the code words fill the whole code, no more and no less. -/
def isComplete (lengths : List Nat) : Bool :=
  weight lengths = 1 <<< maxLength

/-- Whether no symbol is used, or a single one with a code word of one bit. -/
def isTrivial (lengths : List Nat) : Bool :=
  lengths.filter (· ≠ 0) ∈ [[], [1]]

/-- The tree of the code with the given lengths; even a code without symbols reads a bit before it
fails. -/
def ofLengths (lengths : List Nat) : CodeTree :=
  match grow (maxLength + 1) 0 (ordered lengths) with
  | (empty, _) => node empty empty
  | (tree, _) => tree

/-- The tree of a code that fills up, or of a trivial one where that is allowed. -/
def ofLengths? (allowTrivial : Bool) (lengths : List Nat) : Option CodeTree :=
  if isComplete lengths || (allowTrivial && isTrivial lengths) then some (ofLengths lengths)
  else none

end CodeTree

end Deflate

end ZipMount
