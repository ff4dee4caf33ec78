import ZipMount.Archive
import ZipMount.Database
import ZipMount.Handle.Rehearsal
import ZipMount.Proofs.Archive.Directory
import ZipMount.Proofs.Archive.RoundTrip
import ZipMount.Proofs.Database.FileSize
import ZipMount.Proofs.Database.FullRead
import ZipMount.Proofs.Database.Opening
import ZipMount.Proofs.Database.Pages
import ZipMount.Proofs.Handle.Crossing
import ZipMount.Proofs.Handle.Cursor
import ZipMount.Proofs.Handle.Reopening
import ZipMount.Proofs.Layout.Descriptor
import ZipMount.Proofs.Layout.Zip64Field
import ZipMount.Proofs.Mount.Confined
import ZipMount.Proofs.Mount.Directory
import ZipMount.Proofs.Mount.Ending
import ZipMount.Proofs.Mount.Listing
import ZipMount.Proofs.Mount.Measure
import ZipMount.Proofs.Mount.Reach
import ZipMount.Proofs.Mount.Rounds
import ZipMount.Proofs.Mount.Tree
import ZipMount.Proofs.Mount.Truncation
import ZipMount.Proofs.Mount.Tuning
import ZipMount.Proofs.Settings.RoundTrip
import ZipMount.Proofs.Walk.Agreement
import ZipMount.Proofs.Walk.Consistent
import ZipMount.Proofs.Walk.FailStop
import ZipMount.Proofs.Walk.Lenient
import ZipMount.Proofs.Walk.Tour
import ZipMount.Registry
import ZipMount.TempFile
