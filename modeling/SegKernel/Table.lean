import Std.Data.ExtTreeMap
import SegKernel.Scalar.Basic

/-! Tables by name. They are listed in the order of the names, and two tables that answer alike are
    equal. -/

namespace SegKernel

abbrev Table (α : Type) : Type := Std.ExtTreeMap Ident α

/-- The table of some entries; of several for one name the last one counts. -/
def Table.ofList {α : Type} (entries : List (Ident × α)) : Table α := Std.ExtTreeMap.ofList entries

end SegKernel
