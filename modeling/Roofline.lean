import Roofline.Correctness.MergedTracing
import Roofline.Correctness.Recursion
import Roofline.Correctness.ExitChecks
import Roofline.Correctness.BlockCoverage
import Roofline.Correctness.JoinedRuns
import Roofline.Correctness.CallNumbers
import Roofline.Correctness.BatchedCounting
import Roofline.Correctness.BufferBound
import Roofline.Correctness.ByteModes
import Roofline.Correctness.LaneCounting
import Roofline.Correctness.JoinByLabel
import Roofline.Correctness.PlottedSeries
import Roofline.Correctness.RoundTrip
import Roofline.Correctness.DivisionSafety
import Roofline.Correctness.AppendedSeries
import Roofline.Correctness.MergedLines
import Roofline.Correctness.RerunMetainfo
import Roofline.Correctness.ThreadFiles
import Roofline.Correctness.SharedNumbers
import Roofline.Correctness.PlacedLabels
import Roofline.Correctness.ReportedAgain
import Roofline.Correctness.RecordedSeries
import Roofline.Correctness.PlottedBlocks
import Roofline.Correctness.ErtDatabase
import Roofline.Correctness.X86Counting
