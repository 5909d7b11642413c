import SegKernel.Main
import SegKernel.Proofs.Collectives.ChunkReductions
import SegKernel.Proofs.Collectives.ChunkScans
import SegKernel.Proofs.Collectives.Columns
import SegKernel.Proofs.Collectives.Reducing
import SegKernel.Proofs.Convergence.Modules
import SegKernel.Proofs.Coverage.Groups
import SegKernel.Proofs.Coverage.Precomputing
import SegKernel.Proofs.Execution.Assigning
import SegKernel.Proofs.Execution.Rebuilding
import SegKernel.Proofs.Fills.Operations
import SegKernel.Proofs.Fills.Seeds
import SegKernel.Proofs.Footprints.Launches
import SegKernel.Proofs.Hoisting.Launches
import SegKernel.Proofs.Introductions.Modules
import SegKernel.Proofs.Lowering.Sizes
import SegKernel.Proofs.Lowering.Widths
import SegKernel.Proofs.Maps.Assembling
import SegKernel.Proofs.Maps.Concatenating
import SegKernel.Proofs.Maps.Empty
import SegKernel.Proofs.Maps.Nested
import SegKernel.Proofs.Maps.Preparing
import SegKernel.Proofs.Maps.Reads
import SegKernel.Proofs.Maps.Tiles
import SegKernel.Proofs.Maps.Tiling
import SegKernel.Proofs.Races.Collectives
import SegKernel.Proofs.Races.Verdicts
import SegKernel.Proofs.Reading.Columns
import SegKernel.Proofs.Reading.Modules
import SegKernel.Proofs.Reading.Numerals
import SegKernel.Proofs.Reruns.Launches
import SegKernel.Proofs.Schedules.Launches
import SegKernel.Proofs.Totals.Programs
import SegKernel.Proofs.Updates.Concurrent
