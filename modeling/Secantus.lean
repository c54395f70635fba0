import Secantus.Undo.Restore
import Secantus.Diff.Changed
import Secantus.Oplog.Watermark
import Secantus.Oplog.Readers
import Secantus.Oplog.Stable
import Secantus.ShareLocks.Held
import Secantus.Pitr.Complete
import Secantus.Sorter.Blocking
import Secantus.Ssi.Horizon
import Secantus.Ssi.Outlives
import Secantus.GraceJoin.Exact
import Secantus.Query.Less
import Secantus.Query.InSets
import Secantus.Projection.Raw
import Secantus.PgNumeric.Predicates
import Secantus.PgNumeric.Typmod
import Secantus.Update.ArrayFilters
import Secantus.Oplog.BareEmit
import Secantus.BucketAuto.Granular
import Secantus.Copy.ReadsBack
import Secantus.Frame.Framing
import Secantus.Insert.PreChecks
import Secantus.HashIndex.Splits
import Secantus.Transactions.Ended
import Secantus.LockManager.Waits
import Secantus.Transactions.Counts
import Secantus.Index.Variants
import Secantus.ScanBounds.Regex
import Secantus.ScanBounds.Spans
import Secantus.Distinct.Sets
import Secantus.ExternalSort.Rows
import Secantus.FreeSpace.Runs
import Secantus.Like.Meaning
import Secantus.Ranges.Canonical
import Secantus.Ranges.RoundTrip
import Secantus.Rawstr.Operations
import Secantus.Hstore.Binary
import Secantus.TopN.Engines
import Secantus.HashedSubplan.Answers
import Secantus.ConstQuals.Simplify
import Secantus.Partitions.Stages
import Secantus.Densify.Gaps
import Secantus.Geohash.Union
import Secantus.Bson.ExactDouble
import Secantus.Tuplesort.Checked
import Secantus.ScanPartitions.Rows
import Secantus.WindowFields.Removable
