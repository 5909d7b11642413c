import SegKernel.Lowering.Histogram
import SegKernel.Lowering.Reduction

/-! The lowering of a module to a program. -/

namespace SegKernel

namespace Lowering

/-- Lowers a segmented operation that stands outside all others. -/
def segmented (pattern : List PatElem) (op : SegOp) : Lowering Unit :=
  match op.grid.level, op.kind with
  | .thread, .map => mapByThreads pattern op
  | .group, .map => mapByGroups pattern op
  | .thread, .reduce ops => reduceByThreads pattern op ops
  | .thread, .histogram hs => histogramByThreads pattern op hs
  | .thread, .scan _ => limitation .scanByThreads op.span
  | .group, kind => defect (.groupLevelOutside kind.name) op.span

def hostOp : HostOp → Lowering Unit
  | .seg pattern op => segmented pattern op
  | .replicate dest value => replicate dest value
  | .iota dest start step => iota dest start step
  | .copy dest source => copy dest source

end Lowering

/-- Lowers all operations of a module, one after another, into one program. -/
def Module.lower (config : Config) (m : Module) : Except LowerError Program :=
  ((m.ops.forM Lowering.hostOp).run ⟨config, m.env⟩ |>.run {}).map (·.2.program)

end SegKernel
