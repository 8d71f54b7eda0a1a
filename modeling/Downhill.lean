import Downhill.Constraint.Projection
import Downhill.Objective.Quadratic
import Downhill.Random.Xoshiro
import Downhill.Report.Note
import Downhill.Session.Command
import Downhill.Time.HostTimers
import Downhill.Time.VirtualClock
import Downhill.Proofs.Time.Firing
import Downhill.Proofs.Time.History
import Downhill.Proofs.Time.Pending
import Downhill.Proofs.Time.Shift
import Downhill.Proofs.Session.AtMinimum
import Downhill.Proofs.Session.Attendance
import Downhill.Proofs.Session.Cadence
import Downhill.Proofs.Session.Coherence
import Downhill.Proofs.Session.Course
import Downhill.Proofs.Session.Descents
import Downhill.Proofs.Session.Elapse
import Downhill.Proofs.Session.Finality
import Downhill.Proofs.Session.Flags
import Downhill.Proofs.Session.RandomStarts
import Downhill.Proofs.Session.Range
import Downhill.Proofs.Session.Reachable
import Downhill.Proofs.Session.Refusals
import Downhill.Proofs.Session.Renewal
import Downhill.Proofs.Session.Steady
import Downhill.Proofs.Session.Ticks
import Downhill.Proofs.Session.Turns
import Downhill.Proofs.Binary64.Encoding
import Downhill.Proofs.Binary64.Hypotenuse
import Downhill.Proofs.Binary64.Limits
import Downhill.Proofs.Binary64.Nearness
import Downhill.Proofs.Binary64.Normalizing
import Downhill.Proofs.Binary64.Numbers
import Downhill.Proofs.Binary64.Operations
import Downhill.Proofs.Binary64.Order
import Downhill.Proofs.Binary64.Precision
import Downhill.Proofs.Binary64.Rounding
import Downhill.Proofs.Binary64.Shrinking
import Downhill.Proofs.Binary64.Signs
import Downhill.Proofs.Binary64.Words
import Downhill.Proofs.Objective.Curvature
import Downhill.Proofs.Objective.Definiteness
import Downhill.Proofs.Objective.ExactForm
import Downhill.Proofs.Objective.Gradient
import Downhill.Proofs.Objective.RoundedNewton
import Downhill.Proofs.Constraint.CurvePoints
import Downhill.Proofs.Constraint.DiskPoints
import Downhill.Proofs.Constraint.FinitePoints
import Downhill.Proofs.Constraint.NearestHeight
import Downhill.Proofs.Sampling.Candidates
import Downhill.Proofs.Sampling.Drawable
import Downhill.Proofs.Sampling.Ranges
import Downhill.Proofs.Sampling.Scaling
import Downhill.Proofs.Exact.Arithmetic
import Downhill.Proofs.Exact.Axes
import Downhill.Proofs.Exact.Descending
import Downhill.Proofs.Exact.Newton
import Downhill.Proofs.Exact.StabilityLimit
