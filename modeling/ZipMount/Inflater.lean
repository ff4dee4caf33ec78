import ZipMount.Deflate.Decode
import ZipMount.Error

/-!
# Delivering deflated payloads

A container comes to its reader through a buffer, one slice after the other, and a deflated payload
is decoded slice by slice.  For a sound stream the slices do not matter.  A damaged one is found out
in some slice; what the slices before it have given is delivered, and the rest is lost.  So the
slices show in what comes before the failure.

The buffer and the decoder are an `Inflater`, and whatever reads containers takes it as given.  The
standard one fills its buffer at the multiples of its size and decodes with `Deflate.decode`.
-/

namespace ZipMount

/-- A decoded payload on its way to the reader. -/
structure Inflow where
  /-- The bytes still to be delivered. -/
  pending : Bytes
  /-- What follows them: the bytes after the payload, or the failure to decode more. -/
  ending : Except IoError Bytes

/-- A rule for cutting what is ahead into slices. -/
structure Slicing where
  slices : Bytes → List Bytes
  /-- Nothing is lost and nothing is added. -/
  flatten_slices (input : Bytes) : (slices input).flatten = input

namespace Slicing

/-- Everything ahead is one slice. -/
def whole : Slicing where
  slices input := [input]
  flatten_slices input := by simp

/-- The input cut after every `size` bytes, at most `fuel` times. -/
def chop (size : Nat) : Nat → Bytes → List Bytes
  | 0, input => [input]
  | fuel + 1, input =>
    if input.length ≤ size then [input] else input.take size :: chop size fuel (input.drop size)

/-- Cutting loses nothing. -/
theorem flatten_chop (size fuel : Nat) (input : Bytes) : (chop size fuel input).flatten = input := by
  induction fuel generalizing input with
  | zero => simp [chop]
  | succ fuel ih =>
    unfold chop
    split
    · simp
    · rw [List.flatten_cons, ih, List.take_append_drop]

/-- The cuts are at the multiples of `size`, counted from the start of a container of the given
length. -/
def aligned (size length : Nat) : Slicing where
  slices input :=
    let first := size - (length - input.length) % size
    input.take first :: chop size input.length (input.drop first)
  flatten_slices input := by
    rw [List.flatten_cons, flatten_chop, List.take_append_drop]

end Slicing

/-- A buffer in front of a container and the decoder behind it. -/
class Inflater where
  /-- How a buffer of some size cuts a container of some length. -/
  slicing (size length : Nat) : Slicing
  /-- The delivery of a payload whose bytes, and whatever follows them, come in slices. -/
  inflow (slices : List Bytes) : Inflow

namespace Inflow

/-- What a damaged stream hands over: the output of the slices in front of the one in which the
damage shows.  The bytes in `seen` have come already, and their output is `handed`. -/
def handedOver (seen handed : Bytes) : List Bytes → Bytes
  | [] => handed
  | slice :: slices =>
    match Deflate.decode (seen ++ slice) with
    | .cutOff output => handedOver (seen ++ slice) output slices
    | _ => handed

/-- The delivery of the deflate stream at the front of the slices. -/
def ofSlices (slices : List Bytes) : Inflow :=
  match Deflate.decode slices.flatten with
  | .complete output rest => ⟨output, .ok rest⟩
  | .cutOff output => ⟨output, .error .incompleteDeflate⟩
  | .corrupt => ⟨handedOver [] [] slices, .error .corruptDeflate⟩

end Inflow

/-- Slices of the buffer size, counted from the start of the container, and `Deflate.decode`. -/
instance (priority := low) Inflater.standard : Inflater where
  slicing := Slicing.aligned
  inflow := Inflow.ofSlices

end ZipMount
