import Shading.Code.Listing
import Shading.Code.Pool
import Shading.Compile
import Shading.Context.Document
import Shading.Program.Document
import Shading.Raster.Rasterize
import Shading.Settings.Document
import Shading.Proofs.Code.Normalization
import Shading.Proofs.Device.Refinement
import Shading.Proofs.Resources
import Shading.Proofs.Sharing
import Shading.Proofs.Simplification
import Shading.Proofs.Stability
import Shading.Proofs.Machine.Limits
import Shading.Proofs.Machine.Termination
import Shading.Proofs.Code.Boundaries
import Shading.Proofs.Device.Compiled
import Shading.Proofs.Device.Position
import Shading.Proofs.Economy
import Shading.Proofs.Exact.Standard
import Shading.Proofs.Opacity
import Shading.Proofs.Motion
import Shading.Proofs.PathInclusion
import Shading.Proofs.Code.Linking
import Shading.Proofs.Code.Pooling
import Shading.Proofs.Code.Renumbering
import Shading.Proofs.WellFormed
import Shading.Proofs.Gamut
import Shading.Proofs.Needs
import Shading.Proofs.Invertibility
import Shading.Proofs.RadialGradient
import Shading.Proofs.Replacement
import Shading.Proofs.Faces
import Shading.Proofs.Device.Samples
import Shading.Proofs.Blends
import Shading.Proofs.Triangles
import Shading.Proofs.Device.Safety
import Shading.Proofs.Rasterization
import Shading.Proofs.Code.Lengths
import Shading.Proofs.Flags
