import ResumableBatch.Model
import ResumableBatch.Engine
import ResumableBatch.Lib.Lts
import ResumableBatch.Lib.EState
import ResumableBatch.Proof.Route
import ResumableBatch.Proof.Work
import ResumableBatch.Proof.Ledger
import ResumableBatch.Lib.Lists
import ResumableBatch.Lib.Text
import ResumableBatch.Lib.Json
import ResumableBatch.Lib.JsonDepth
import ResumableBatch.Proof.Stitch
import ResumableBatch.Exec
import ResumableBatch.Proof.Frontier
import ResumableBatch.Proof.Terminates
import ResumableBatch.Proof.Lifecycle
import ResumableBatch.Proof.Interrupt
import ResumableBatch.Proof.Job
import ResumableBatch.Proof.SplitFailure
import ResumableBatch.Proof.Tally
import ResumableBatch.Proof.Transparent
import ResumableBatch.Lib.JsonRoundTrip
import ResumableBatch.Lib.JsonCanonical
import ResumableBatch.Durability
import ResumableBatch.Stores.Base
import ResumableBatch.Proof.Jsonl
import ResumableBatch.Proof.Commit
import ResumableBatch.Proof.Verify
import ResumableBatch.Proof.Names
import ResumableBatch.Lib.JsonStrings
import ResumableBatch.Proof.Manifest
import ResumableBatch.Proof.Open
import ResumableBatch.Proof.Forward
import ResumableBatch.Proof.Published
import ResumableBatch.Proof.Live
import ResumableBatch.Proof.JsonlStore
import ResumableBatch.Proof.Parquet
import ResumableBatch.Proof.Reopen
import ResumableBatch.Proof.Predict
import ResumableBatch.Proof.Timing
import ResumableBatch.Proof.Waits
import ResumableBatch.Proof.Rollback
import ResumableBatch.Proof.Corruption
import ResumableBatch.Proof.Checkpoints
import ResumableBatch.Locking
import ResumableBatch.Proof.Writers
import ResumableBatch.Proof.Admission
import ResumableBatch.Proof.History
import ResumableBatch.Proof.Recovery
import ResumableBatch.Pool
import ResumableBatch.Proof.Pool
import ResumableBatch.Proof.Workers
import ResumableBatch.Proof.PoolEnds
import ResumableBatch.Proof.StoreMap
import ResumableBatch.Proof.JobStore
