/-!
# Errors

Every failure is a cause: a value that says what went wrong and carries the data needed to say it.
The wording is in `Fault.message` and `IoError.text` alone.

There are two layers.  An `Error` is what the file system reports: a `Fault` of its own or a failed
input operation.  An `IoError` is what a byte stream reports: a failure of the host, a failure named
by the stream itself, or a `Fault` that surfaced while reading.  `Error.toIo` goes down a layer and
`Error.io` goes up; going up never unwraps, so a fault that passed through a stream stays an input
error with the fault's text.
-/

namespace ZipMount

/-- The class of an input failure. -/
inductive IoKind
  | unexpectedEof
  | invalidData
  | invalidInput
  | unsupported
  | notFound
  | interrupted
  | isADirectory
  | notADirectory
  | invalidFilename
  | permissionDenied
  | wouldBlock
  | timedOut
  | other
  deriving DecidableEq, Repr

/-- The eight lower-case hexadecimal digits of a 32-bit word. -/
def hexWord (word : Nat) : String :=
  String.ofList ((List.range 8).reverse.map fun i => Nat.digitChar ((word >>> (4 * i)) % 16))

/-- What makes the bytes of a container unacceptable. -/
inductive Defect
  /-- The four bytes where a header is due are no known signature. -/
  | signature (found : Nat)
  /-- A name flagged as UTF-8 is not. -/
  | nameNotText
  /-- A size is marked as being in the zip64 field, and there is no such field. -/
  | zip64FieldMissing
  /-- An entry holds another number of bytes than is recorded for it. -/
  | length (entry : String) (declared held : Nat)
  /-- A defect stated in words by whoever reports it. -/
  | described (text : String)
  deriving DecidableEq, Repr

/-- The wording of a defect. -/
def Defect.text : Defect → String
  | .signature found => "unexpected signature " ++ hexWord found
  | .nameNotText => "entry name is not valid UTF-8"
  | .zip64FieldMissing => "zip64 size marker without zip64 extra field"
  | .length entry declared held =>
    "entry " ++ entry ++ " declares " ++ toString declared ++ " bytes but holds " ++ toString held
  | .described text => text

/-- A use of the container format that is recognised but not served. -/
inductive Feature
  /-- The payload is encrypted. -/
  | encryption (entry : String)
  /-- The payload uses a compression method without a decoder. -/
  | method (entry : String) (code : Nat)
  /-- The end of the payload is known only after decoding it, and it cannot be decoded. -/
  | unskippable (entry : String)
  /-- A stored payload comes without its length. -/
  | unsizedStored (entry : String)
  /-- A feature stated in words by whoever reports it. -/
  | described (text : String)
  deriving DecidableEq, Repr

/-- The wording of an unsupported feature. -/
def Feature.text : Feature → String
  | .encryption entry => "entry " ++ entry ++ " is encrypted"
  | .method entry code =>
    "entry " ++ entry ++ " uses unsupported compression method " ++ toString code
  | .unskippable entry =>
    "entry " ++ entry ++ " cannot be skipped: its size trails an undecodable payload"
  | .unsizedStored entry => "stored entry " ++ entry ++ " has no size in its local header"
  | .described text => text

/-- A tunable with a least value. -/
inductive SettingsField
  | ioBufferSize
  | sizeProbeChunk
  | skipBufferSize
  deriving DecidableEq, Repr

/-- The key under which a tunable is written. -/
def SettingsField.key : SettingsField → String
  | .ioBufferSize => "io_buffer_size"
  | .sizeProbeChunk => "size_probe_chunk"
  | .skipBufferSize => "skip_buffer_size"

/-- What makes settings unacceptable. -/
inductive SettingsDefect
  /-- These tunables are below their least values. -/
  | tooSmall (fields : List SettingsField)
  /-- The document is not a settings document. -/
  | malformed
  /-- A number exceeds what a document can hold. -/
  | unwritable
  /-- A defect stated in words by whoever reports it. -/
  | described (text : String)
  deriving DecidableEq, Repr

/-- The wording of a settings defect. -/
def SettingsDefect.text : SettingsDefect → String
  | .tooSmall fields => "too small: " ++ String.intercalate ", " (fields.map SettingsField.key)
  | .malformed => "not a settings document"
  | .unwritable => "a number exceeds the range of a document"
  | .described text => text

/-- A failure stated by this library. -/
inductive Fault
  | notFound (path : String)
  | unsupported (operation : String)
  | readOnly (entry : String)
  | readOnlyFileSystem
  | invalidArchive (defect : Defect)
  | unsupportedArchive (feature : Feature)
  | checksumMismatch (entry : String) (expected found : UInt32)
  | invalidMode (mode : String)
  | settings (defect : SettingsDefect)
  | unknownScheme (path : String)
  | registrationFailed (code : Int)
  deriving DecidableEq, Repr

namespace Fault

/-- The wording of a fault. -/
def message : Fault → String
  | .notFound path => "File not found: " ++ path
  | .unsupported operation => "Unsupported operation: " ++ operation
  | .readOnly entry => "File is read-only: " ++ entry
  | .readOnlyFileSystem => "File system is read-only"
  | .invalidArchive defect => "Invalid archive: " ++ defect.text
  | .unsupportedArchive feature => "Unsupported archive feature: " ++ feature.text
  | .checksumMismatch entry expected found =>
    "Checksum mismatch in entry " ++ entry ++ ": expected " ++ hexWord expected.toNat ++
      ", found " ++ hexWord found.toNat
  | .invalidMode mode => "Invalid open mode: " ++ mode ++ " (expected r, rw, rws or rwd)"
  | .settings defect => "Invalid configuration: " ++ defect.text
  | .unknownScheme path => "No file system registered for path: " ++ path
  | .registrationFailed code => "VFS registration failed: " ++ toString code

/-- The class under which a fault surfaces from a byte stream. -/
def kind : Fault → IoKind
  | .notFound _ | .unknownScheme _ => .notFound
  | .unsupported _ | .readOnly _ | .readOnlyFileSystem | .unsupportedArchive _ => .unsupported
  | .invalidArchive _ | .checksumMismatch .. => .invalidData
  | .invalidMode _ | .settings _ => .invalidInput
  | .registrationFailed _ => .other

end Fault

/-- A failed operation on a byte stream. -/
inductive IoError
  /-- The host failed; the wording is the host's own. -/
  | host (kind : IoKind)
  /-- Whoever supplied the stream states the failure in words. -/
  | described (kind : IoKind) (text : String)
  /-- A field of fixed size is cut short. -/
  | shortField
  /-- A payload of recorded size that is passed over is cut short. -/
  | shortPayload
  /-- A stored payload that is read is cut short. -/
  | shortStored
  /-- A deflate stream is damaged. -/
  | corruptDeflate
  /-- A deflate stream is cut short. -/
  | incompleteDeflate
  /-- There is no decoder for the method of the payload. -/
  | undecodableMethod (code : Nat)
  /-- A seek leaves the range of positions. -/
  | seekOutOfRange
  /-- The stream cannot pass over bytes without delivering them. -/
  | noBulkSkip
  /-- A text file is not UTF-8. -/
  | notText
  /-- The name of a file holds a NUL. -/
  | nulInName
  /-- A fault surfaced while reading. -/
  | fault (f : Fault)
  deriving DecidableEq, Repr

namespace IoError

/-- The class of a stream failure. -/
def kind : IoError → IoKind
  | .host kind | .described kind _ => kind
  | .shortField | .shortPayload | .shortStored | .incompleteDeflate => .unexpectedEof
  | .corruptDeflate | .seekOutOfRange | .nulInName => .invalidInput
  | .undecodableMethod _ | .noBulkSkip => .unsupported
  | .notText => .invalidData
  | .fault f => f.kind

/-- The wording of a stream failure, unless it is the host's. -/
def text : IoError → Option String
  | .host _ => none
  | .described _ text => some text
  | .shortField => some "failed to fill whole buffer"
  | .shortPayload => some "container ended inside an entry"
  | .shortStored => some "container ended inside a stored entry"
  | .corruptDeflate => some "corrupt deflate stream"
  | .incompleteDeflate => some "incomplete deflate stream"
  | .undecodableMethod code =>
    some ("compression method " ++ toString code ++ " is not supported")
  | .seekOutOfRange => some "seek to a negative or overflowing position"
  | .noBulkSkip => some "stream has no bulk skip"
  | .notText => some "stream did not contain valid UTF-8"
  | .nulInName => some "file name contained an unexpected NUL byte"
  | .fault f => some f.message

end IoError

/-- A failed operation of the file system. -/
inductive Error
  | fault (f : Fault)
  | io (e : IoError)
  deriving DecidableEq, Repr

namespace Error

/-- The wording of an error, unless it is the host's. -/
def message : Error → Option String
  | .fault f => some f.message
  | .io e => e.text.map ("I/O error: " ++ ·)

/-- The same failure as a byte stream reports it. -/
def toIo : Error → IoError
  | .fault f => .fault f
  | .io e => e

/-- Whether the error refuses an attempt to change the file system. -/
def isUnsupported : Error → Bool
  | .fault (.unsupported _) | .fault (.readOnly _) => true
  | _ => false

/-- Whether the error says that something is not there. -/
def isNotFound : Error → Bool
  | .fault (.notFound _) => true
  | .io e => e.kind = .notFound
  | _ => false

@[simp] theorem toIo_io (e : IoError) : (Error.io e).toIo = e := rfl

/-- Going down and up again keeps the wording of the failure itself. -/
theorem text_toIo (e : Error) :
    e.toIo.text = match e with
      | .fault f => some f.message
      | .io i => i.text := by
  cases e <;> rfl

end Error

end ZipMount
