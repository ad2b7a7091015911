import RecordLedger.Command.Run
import RecordLedger.Collection.Document
import RecordLedger.Ledger.Index
import RecordLedger.Main
import RecordLedger.Store.Archive
import RecordLedger.Store.Interruption
import RecordLedger.Proofs.Ledger.Chain
import RecordLedger.Proofs.Ledger.Failure
import RecordLedger.Proofs.Ledger.Isolation
import RecordLedger.Proofs.Ledger.Repair
import RecordLedger.Proofs.Ledger.Restore
import RecordLedger.Proofs.Ledger.Statement
import RecordLedger.Proofs.Store.Contract
import RecordLedger.Proofs.Ledger.Complete
import RecordLedger.Proofs.Collection.Readers
import RecordLedger.Proofs.Collection.Views
import RecordLedger.Proofs.Ledger.Appearance
import RecordLedger.Proofs.Ledger.Slice
import RecordLedger.Proofs.Collection.Documents
import RecordLedger.Proofs.Command.Atomic
import RecordLedger.Proofs.Command.Lines
import RecordLedger.Proofs.Command.Printed
import RecordLedger.Proofs.Ledger.Onward
import RecordLedger.Proofs.Collection.Failure
import RecordLedger.Proofs.Ledger.Outdated
import RecordLedger.Proofs.Store.Accord
import RecordLedger.Proofs.Ledger.Scan
import RecordLedger.Proofs.Command.Service
import RecordLedger.Proofs.Command.Feedback
import RecordLedger.Proofs.Ledger.Batch
import RecordLedger.Proofs.Ledger.Binding
import RecordLedger.Proofs.Query.Boundary
import RecordLedger.Proofs.Query.Layout
import RecordLedger.Proofs.Cursor
import RecordLedger.Proofs.Moment
import RecordLedger.Proofs.Ledger.Draining
import RecordLedger.Proofs.Ledger.Remainder
import RecordLedger.Proofs.Command.Bound
import RecordLedger.Proofs.Command.SetUp
import RecordLedger.Proofs.Ledger.ReadBack
