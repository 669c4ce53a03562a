import PointSharing.MultiPoint.Compressed
import PointSharing.Proofs.MultiPoint.Verified
import PointSharing.Proofs.Point.Verified
import PointSharing.Proofs.MultiPoint.Compressed
import PointSharing.Proofs.MultiPoint.Decompression
import PointSharing.Proofs.MultiPoint.Draws
import PointSharing.Proofs.Extension
import PointSharing.Proofs.Refusal.Generation
import PointSharing.Proofs.Refusal.Evaluation
import PointSharing.Proofs.DeclaredSizes
import PointSharing.Proofs.ProofCoverage
import PointSharing.Proofs.MultiPoint.Padding
import PointSharing.Proofs.Partition
import PointSharing.Proofs.IgnoredBits
import PointSharing.Proofs.OutputSize
import PointSharing.Proofs.Point.InnerNodes
import PointSharing.Proofs.MultiPoint.InnerNodes
import PointSharing.Proofs.MultiPoint.Lookups
import PointSharing.Proofs.MultiPoint.Slots
import PointSharing.Proofs.MultiPoint.Selection
