import Chronicle.Archive.Branching
import Chronicle.Archive.Listing
import Chronicle.Archive.Reading
import Chronicle.Archive.Removal
import Chronicle.Archive.Writing
import Chronicle.ConfigFile
import Chronicle.Proofs.Accounting
import Chronicle.Proofs.Acknowledgement
import Chronicle.Proofs.Agreement
import Chronicle.Proofs.Atomicity
import Chronicle.Proofs.Backward
import Chronicle.Proofs.Bounds
import Chronicle.Proofs.Chain
import Chronicle.Proofs.Collection
import Chronicle.Proofs.Confinement
import Chronicle.Proofs.EventCodec
import Chronicle.Proofs.Fencing
import Chronicle.Proofs.Flattening
import Chronicle.Proofs.Forking
import Chronicle.Proofs.Gapless
import Chronicle.Proofs.Independence
import Chronicle.Proofs.Isolation
import Chronicle.Proofs.Listings
import Chronicle.Proofs.Ownership
import Chronicle.Proofs.Pedigree
import Chronicle.Proofs.PrefixFree
import Chronicle.Proofs.Repetition
import Chronicle.Proofs.Replay
import Chronicle.Proofs.Requests
import Chronicle.Proofs.Retry
import Chronicle.Proofs.Scanning
import Chronicle.Proofs.Trimming
import Chronicle.Storage.MemoryStore
import Chronicle.Storage.Tables.Contents
import Chronicle.Storage.Tables.Views
import Chronicle.Wire.RoundTrip
