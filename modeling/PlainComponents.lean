import PlainComponents.Main
import PlainComponents.Proofs.Text.Offset
import PlainComponents.Proofs.Text.Splice
import PlainComponents.Proofs.Text.Frame
import PlainComponents.Proofs.Component.Declared
import PlainComponents.Proofs.Tree.Parsed
import PlainComponents.Proofs.Tree.Erasure
import PlainComponents.Proofs.Tree.Address
import PlainComponents.Proofs.Tree.Tour
import PlainComponents.Proofs.Component.AllOrNothing
import PlainComponents.Proofs.Component.Shapes
import PlainComponents.Proofs.Component.Faults
import PlainComponents.Proofs.Component.Grammar
import PlainComponents.Proofs.Component.Intersections
import PlainComponents.Proofs.Component.Unwrapping
import PlainComponents.Proofs.Component.Transparency
import PlainComponents.Proofs.Tree.Concrete
import PlainComponents.Proofs.Conversion.Walk
import PlainComponents.Proofs.Conversion.Marks
import PlainComponents.Proofs.Conversion.Refinement
import PlainComponents.Proofs.Conversion.Overlap
import PlainComponents.Proofs.Tree.Layout
import PlainComponents.Proofs.Conversion.PropsNote
import PlainComponents.Proofs.Conversion.NormalForm
import PlainComponents.Proofs.Conversion.FixedPoint
import PlainComponents.Proofs.Conversion.Shrinking
import PlainComponents.Proofs.Conversion.Copied
import PlainComponents.Proofs.Conversion.Footprint
import PlainComponents.Proofs.Batch.Contents
import PlainComponents.Proofs.Batch.Resolution
import PlainComponents.Proofs.Batch.Replacement
import PlainComponents.Proofs.Batch.Arrangement
import PlainComponents.Proofs.Batch.Naming
import PlainComponents.Proofs.Batch.Eligible
import PlainComponents.Proofs.Batch.Forecast
import PlainComponents.Proofs.Batch.Schedule
import PlainComponents.Proofs.Batch.Effect
import PlainComponents.Proofs.Text.Application
import PlainComponents.Proofs.Batch.SecondRun
import PlainComponents.Proofs.Program.Status
