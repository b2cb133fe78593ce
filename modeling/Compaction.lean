import Compaction.Main
import Compaction.Session
import Compaction.Stopwatch
import Compaction.Proofs.Rejection
import Compaction.Proofs.Absorption
import Compaction.Proofs.FixedPoint
import Compaction.Proofs.ReferenceSet
import Compaction.Proofs.Noninterference
import Compaction.Proofs.Reading
import Compaction.Proofs.Markers
import Compaction.Proofs.Journal
import Compaction.Proofs.Average
import Compaction.Proofs.Overflow
import Compaction.Proofs.Decoding
import Compaction.Proofs.Precedence
import Compaction.Proofs.Guarded
import Compaction.Proofs.Replay
import Compaction.Proofs.Partition
import Compaction.Proofs.TimeText
import Compaction.Proofs.Accepted
import Compaction.Proofs.TableText
import Compaction.Proofs.Counters
import Compaction.Proofs.RunLog
import Compaction.Proofs.SessionRun
import Compaction.Proofs.TableLayout
