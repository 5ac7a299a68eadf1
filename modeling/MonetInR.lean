import MonetInR.Gdk.Select.SubSelect
import MonetInR.Sql.Storage.Sequence
import MonetInR.Sql.Storage.RollForward
import MonetInR.Gdk.Heap.History
import MonetInR.Gdk.Aggr.Sums
import MonetInR.Gdk.Group.Grouping
import MonetInR.Common.Stream.Framing
import MonetInR.Leak.Queries
import MonetInR.Gdk.Select.ScanBuffer
import MonetInR.Gdk.Join.SemiJoin
import MonetInR.Gdk.Join.ThetaJoin
import MonetInR.Gdk.Cand.MergeCand
import MonetInR.Gdk.Project.Flags
import MonetInR.Gdk.Bbp.RefCount
import MonetInR.Gdk.Sort.SsortSorted
import MonetInR.Gdk.Calc.BitOps
import MonetInR.Gdk.Heap.VarWidth
import MonetInR.Gdk.Heap.Extend
import MonetInR.Gdk.Bat.Undo
import MonetInR.Gdk.Imprints
import MonetInR.Mal.Leaker
import MonetInR.Mal.Aliases
import MonetInR.Mal.Dataflow
import MonetInR.Mal.Move
import MonetInR.Mtime.Date
import MonetInR.Sql.Common.ListMatch
import MonetInR.Sql.Backends.Round
import MonetInR.Str.Like
