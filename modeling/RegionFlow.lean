import RegionFlow.Proofs.Analysis.Bounds
import RegionFlow.Proofs.Config.History
import RegionFlow.Proofs.Expression.FirstReads
import RegionFlow.Proofs.Flow.Composition
import RegionFlow.Proofs.Flow.InnermostLoop
import RegionFlow.Proofs.Listing.Order
import RegionFlow.Proofs.Scope.Simulation
import RegionFlow.Proofs.Serial.RoundTrip
import RegionFlow.Proofs.Shape.Transfer
import RegionFlow.Proofs.Symmetry.Arms
