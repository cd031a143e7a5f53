import TapeLang.Program.Counts
import TapeLang.Session
import TapeLang.Codec
import TapeLang.Encoder
import TapeLang.Transition.Passes
import TapeLang.Limits.Reader
import TapeLang.Command.Perform
import TapeLang.Main
import TapeLang.Proofs.Program.Matching
import TapeLang.Proofs.Program.Segment
import TapeLang.Proofs.Program.DyckWords
import TapeLang.Proofs.Program.Unmatched
import TapeLang.Proofs.Machine.Reachable
import TapeLang.Proofs.Machine.Feeding
import TapeLang.Proofs.Machine.LoopStack
import TapeLang.Proofs.Machine.Course
import TapeLang.Proofs.Machine.Transfer
import TapeLang.Proofs.Machine.Driving
import TapeLang.Proofs.Feed.Failures
import TapeLang.Proofs.Machine.Retrying
import TapeLang.Proofs.Machine.Flags
import TapeLang.Proofs.Machine.Calls
import TapeLang.Proofs.Machine.Stopping
import TapeLang.Proofs.Trace.Recording
import TapeLang.Proofs.Structured.Block
import TapeLang.Proofs.Structured.Evaluation
import TapeLang.Proofs.Structured.Simulation
import TapeLang.Proofs.Structured.Run
import TapeLang.Proofs.Structured.Walk
import TapeLang.Proofs.Structured.Nesting
import TapeLang.Proofs.Transition.LoopCount
import TapeLang.Proofs.Transition.Inverse
import TapeLang.Proofs.Transition.Passes
import TapeLang.Proofs.Transition.Shortening
import TapeLang.Proofs.Transition.Sweep
import TapeLang.Proofs.Transition.Words
import TapeLang.Proofs.Transition.Entries
import TapeLang.Proofs.Transition.Halting
import TapeLang.Proofs.Transition.Discovery
import TapeLang.Proofs.Transition.Shapes
import TapeLang.Proofs.Encoder.Printing
import TapeLang.Proofs.Encoder.Choices
import TapeLang.Proofs.Encoder.Layout
import TapeLang.Proofs.Machine.Serving
import TapeLang.Proofs.Machine.Bounds
import TapeLang.Proofs.Machine.Segment
import TapeLang.Proofs.Machine.LoopDepth
import TapeLang.Proofs.Machine.Footprint
import TapeLang.Proofs.Machine.Allocation
import TapeLang.Proofs.Codec.Grams
import TapeLang.Proofs.Codec.Pieces
import TapeLang.Proofs.Codec.Runs
import TapeLang.Proofs.Codec.RoundTrip
import TapeLang.Proofs.Codec.Segmentation
import TapeLang.Proofs.Codec.Canonical
import TapeLang.Proofs.Codec.Length
import TapeLang.Proofs.Codec.Order
import TapeLang.Proofs.Codec.Listing
import TapeLang.Proofs.Machine.Printing
import TapeLang.Proofs.Machine.Interaction
import TapeLang.Proofs.Machine.Widening
import TapeLang.Proofs.Machine.Reading
import TapeLang.Proofs.Trace.Browsing
import TapeLang.Proofs.Trace.Requests
import TapeLang.Proofs.Trace.Footprints
import TapeLang.Proofs.Session.History
import TapeLang.Proofs.Command.Texts
import TapeLang.Proofs.Command.Piping
import TapeLang.Proofs.Command.Running
import TapeLang.Proofs.Json.Grammar
import TapeLang.Proofs.Json.Scanning
import TapeLang.Proofs.Json.Passing
import TapeLang.Proofs.Limits.Values
import TapeLang.Proofs.Limits.Reading
import TapeLang.Proofs.Limits.Layers
