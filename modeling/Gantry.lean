import Gantry.Error.Message
import Gantry.Manual.Machine
import Gantry.Motion.Profile
import Gantry.Queue.Samples
import Gantry.Settings.Construction
import Gantry.Settings.Reading
import Gantry.Topology.Kinematics
import Gantry.Transform.Host
import Gantry.Proofs.Exact
import Gantry.Proofs.Numeric.Lawful
import Gantry.Proofs.Numeric.Rounding
import Gantry.Proofs.Numeric.Unpacked
import Gantry.Proofs.Numeric.Arithmetic
import Gantry.Proofs.Numeric.Double
import Gantry.Proofs.Motion.Segment
import Gantry.Proofs.Queue.Filling
import Gantry.Proofs.Queue.Timeline
import Gantry.Proofs.Rail.Track
import Gantry.Proofs.Rail.Breakpoints
import Gantry.Proofs.Rail.Flush
import Gantry.Proofs.Topology.Coordinates
import Gantry.Proofs.Topology.Inverse
import Gantry.Proofs.Topology.Following
import Gantry.Proofs.Queue.History
import Gantry.Proofs.Rail.Agreement
import Gantry.Proofs.Rail.Renewal
import Gantry.Proofs.Rail.Reset
import Gantry.Proofs.Rail.Tracking
import Gantry.Proofs.Motion.Profile
import Gantry.Proofs.Rail.CatchUp
import Gantry.Proofs.Rail.Arrival
import Gantry.Proofs.Manual.Drive
import Gantry.Proofs.Manual.Session
import Gantry.Proofs.Manual.Astray
import Gantry.Proofs.Manual.Handover
import Gantry.Proofs.Rail.Crossing
import Gantry.Proofs.Rail.StepLog
import Gantry.Proofs.Queue.Trimmed
import Gantry.Proofs.Queue.Ledger
import Gantry.Proofs.Queue.Reclaimed
import Gantry.Proofs.Rail.Finalized
import Gantry.Proofs.Transform.Passes
import Gantry.Proofs.Transform.Rotation
import Gantry.Proofs.Transform.Rigid
import Gantry.Proofs.Transform.Chain
import Gantry.Proofs.Transform.Straight
import Gantry.Proofs.Transform.Activation
import Gantry.Proofs.Transform.Memory
import Gantry.Proofs.Transform.Arc
import Gantry.Proofs.Transform.Lines
import Gantry.Proofs.Transform.Piece
import Gantry.Proofs.Transform.Skew
import Gantry.Proofs.Settings.Wiring
import Gantry.Proofs.Transform.Readout
import Gantry.Proofs.Transform.Commanded
import Gantry.Proofs.Transform.Turns
import Gantry.Proofs.Transform.Current
import Gantry.Proofs.Numeric.Quotient
import Gantry.Proofs.Queue.Swept
import Gantry.Proofs.Queue.Slack
import Gantry.Proofs.Settings.Usable
import Gantry.Proofs.Settings.Enrolled
import Gantry.Proofs.Manual.Punctual
import Gantry.Proofs.Rail.HalfStep
import Gantry.Proofs.Transform.Slots
import Gantry.Proofs.Queue.Guarded
import Gantry.Proofs.Rail.Sources
import Gantry.Proofs.Rail.Guarded
import Gantry.Proofs.Manual.Refusals
import Gantry.Proofs.Manual.Roster
import Gantry.Proofs.Manual.Registration
import Gantry.Proofs.Settings.OptionNames
import Gantry.Proofs.Settings.Heeded
import Gantry.Proofs.Settings.Written
import Gantry.Proofs.InPlace
import Gantry.Proofs.Queue.Fanout
import Gantry.Proofs.Rail.Atomic
import Gantry.Proofs.Motion.Fastest
import Gantry.Proofs.Transform.Piecewise
import Gantry.Proofs.Transform.Traces
import Gantry.Proofs.Transform.Spins
import Gantry.Proofs.Transform.Radii
import Gantry.Proofs.Motion.Speed
import Gantry.Proofs.Motion.Shares
import Gantry.Proofs.Queue.Batched
import Gantry.Proofs.Queue.Seamless
import Gantry.Proofs.Queue.Sampling
import Gantry.Proofs.Rail.Endstops
import Gantry.Proofs.Rail.Counts
import Gantry.Proofs.Motion.Quadratic
import Gantry.Proofs.Rail.Pieces
