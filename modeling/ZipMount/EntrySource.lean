import ZipMount.Bytes
import ZipMount.Error
import ZipMount.VirtualPath

/-!
# Sources of entry streams

An entry stream delivers the payload of one entry from its first byte on and never goes back.  An
`EntrySource` is what a random-access handle needs to know about such streams: how to open one, how
to read from it, and whether and how to pass over bytes in bulk.

Opening and reading may depend on a world that lives longer than the streams, such as the files of
the host, and may change it.
-/

namespace ZipMount

/-- The streams of type `σ` that can be opened in a world of type `ω`. -/
structure EntrySource (ω σ : Type) where
  /-- A stream at the first byte of the payload of an entry. -/
  openEntry : VirtualPath → ω → Except Error σ × ω
  /-- At most the given number of bytes, none at the end of the payload. -/
  read : Nat → σ → ω → Except IoError Bytes × σ × ω
  /-- Whether `skip` is to be used. -/
  supportsSkip : σ → Bool
  /-- Passes over at most the given number of bytes and tells how many, zero at the end. -/
  skip : Nat → σ → ω → Except IoError Nat × σ × ω

end ZipMount
