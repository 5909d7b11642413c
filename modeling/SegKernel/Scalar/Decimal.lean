import SegKernel.Scalar.FloatFormat

/-! Decimal texts of binary floating-point numbers. A number is written with the fewest significant
    digits that are read back as the same number, and a decimal is read as the nearest number. -/

namespace SegKernel

/-- The digits of a natural number in base ten. -/
def decimalDigits (n : Nat) : List Char := Nat.toDigits 10 n

/-- The number that a list of decimal digits denotes; other characters count by their code. -/
def ofDecimalDigits (cs : List Char) : Nat := cs.foldl (fun n c => n * 10 + (c.toNat - '0'.toNat)) 0

namespace FloatFormat

/-- The decimal `digits · 10^exponent`. -/
structure Decimal where
  digits : Nat
  exponent : Int

/-- Searches the grids `10^p`, `10^(p-1)`, ... for the first that has a point in the interval from
    `low` to `high`, and takes the point next to `value`; the upper one of two equally near. All
    three are fractions over `den`, and `closed` says whether the ends belong to the interval. -/
def shortestFrom (value low high den : Nat) (closed : Bool) : Nat → Int → Decimal
  | 0, p => ⟨value * Nat.pow 10 (-p).toNat / (den * Nat.pow 10 p.toNat), p⟩
  | steps + 1, p =>
    let scale := Nat.pow 10 (-p).toNat
    let unit := den * Nat.pow 10 p.toNat
    let value' := value * scale
    let below := value' / unit
    let above := below + 1
    let belowFits := if closed then low * scale ≤ below * unit else low * scale < below * unit
    let aboveFits := if closed then above * unit ≤ high * scale else above * unit < high * scale
    if belowFits && aboveFits then
      ⟨if 2 * (value' % unit) < unit then below else above, p⟩
    else if belowFits then ⟨below, p⟩
    else if aboveFits then ⟨above, p⟩
    else shortestFrom value low high den closed steps (p - 1)

/-- The shortest decimal that is read back as `m · 2^e`, for `m ≠ 0`. Distances are counted in
    quarters of the unit in the last place, because below a power of two the numbers are twice as
    dense. -/
def shortest (f : FloatFormat) (m : Nat) (e : Int) : Decimal :=
  let quarter := e - 2
  let scaled (n : Nat) : Nat := n <<< quarter.toNat
  let den := 1 <<< (-quarter).toNat
  let low := if m = 1 <<< f.fractionBits then 4 * m - 1 else 4 * m - 2
  let high := 4 * m + 2
  let start := (floorLog2 (scaled high) den + 1) * 30103 / 100000 + 2
  shortestFrom (scaled (4 * m)) (scaled low) (scaled high) den (m % 2 = 0) 25 start

/-- How numbers are laid out: decimal exponents from `lowest` up to but not including `limit` are
    written positionally with at least one digit after the point, others with a power of ten. -/
structure Layout where
  lowest : Int
  limit : Int
  notANumber : String
  infinite : String

/-- The layout of printed code. -/
def Layout.code : Layout := ⟨-4, 16, "NaN", "inf"⟩

/-- Writes the digits `ds` with the point after `point` of them, filling up with zeros. -/
def positional (ds : List Char) (point : Int) : List Char :=
  if point ≤ 0 then '0' :: '.' :: List.replicate (-point).toNat '0' ++ ds
  else
    let whole := point.toNat
    if whole < ds.length then ds.take whole ++ '.' :: ds.drop whole
    else ds ++ List.replicate (whole - ds.length) '0' ++ ['.', '0']

/-- Writes one digit, the others after a point, and the power of ten of the first. -/
def scientific (ds : List Char) (exponent : Int) : List Char :=
  let fraction := ds.drop 1
  ds.take 1 ++ (if fraction.isEmpty then [] else '.' :: fraction) ++ 'e' :: (toString exponent).toList

/-- Writes a decimal whose digits do not end in zero. -/
def Layout.write (layout : Layout) (d : Decimal) : List Char :=
  let ds := decimalDigits d.digits
  let exponent := d.exponent + ds.length - 1
  if layout.lowest ≤ exponent ∧ exponent < layout.limit then positional ds (exponent + 1)
  else scientific ds exponent

/-- The text of the number with the given pattern. -/
def Layout.text (layout : Layout) (f : FloatFormat) (bits : Nat) : String :=
  let sign (negative : Bool) : String := if negative then "-" else ""
  match f.decode bits with
  | .nan => layout.notANumber
  | .infinite a => sign a ++ layout.infinite
  | .finite a m e =>
    sign a ++ String.ofList (if m = 0 then ['0', '.', '0'] else layout.write (f.shortest m e))

/-- The pattern nearest to `±digits / 10^places`. -/
def ofDecimal (f : FloatFormat) (negative : Bool) (digits places : Nat) : Nat :=
  f.withSign negative (f.roundMagnitude digits (Nat.pow 10 places))

end FloatFormat
end SegKernel
