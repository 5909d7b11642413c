/-! Binary floating-point formats and exact arithmetic on their bit patterns. Every finite pattern
    stands for a number `±m · 2^e`; sums, products, quotients and remainders of such numbers are
    formed exactly and rounded once, to the nearest representable number and to the even one of two
    equally near. -/

namespace SegKernel

/-- A binary format is fixed by the widths of its stored fraction and of its biased exponent. -/
structure FloatFormat where
  fractionBits : Nat
  exponentBits : Nat

namespace FloatFormat

def single : FloatFormat := ⟨23, 8⟩
def double : FloatFormat := ⟨52, 11⟩

/-- What a pattern stands for. A finite number is `significand · 2^exponent` with its sign. -/
inductive Datum
  | nan
  | infinite (negative : Bool)
  | finite (negative : Bool) (significand : Nat) (exponent : Int)

variable (f : FloatFormat)

def signBit : Nat := 1 <<< (f.fractionBits + f.exponentBits)

/-- The pattern of positive infinity, the largest magnitude that is not a NaN. -/
def infinity : Nat := (1 <<< f.exponentBits - 1) <<< f.fractionBits

/-- The highest bit of the fraction; it marks a quiet NaN. -/
def quietBit : Nat := 1 <<< (f.fractionBits - 1)

/-- The NaN that an operation without a meaningful result yields. -/
def invalid : Nat := f.signBit + f.infinity + f.quietBit

/-- The exponent of the unit in the last place of the smallest numbers. -/
def minExponent : Int := 2 - (1 <<< (f.exponentBits - 1) : Nat) - f.fractionBits

def magnitude (bits : Nat) : Nat := bits % f.signBit
def isNegative (bits : Nat) : Bool := f.signBit ≤ bits
def isNan (bits : Nat) : Bool := f.infinity < f.magnitude bits
def withSign (negative : Bool) (magnitude : Nat) : Nat := if negative then f.signBit + magnitude else magnitude

def decode (bits : Nat) : Datum :=
  let negative := f.isNegative bits
  let fraction := bits % 1 <<< f.fractionBits
  let exponent := f.magnitude bits >>> f.fractionBits
  if f.isNan bits then .nan
  else if f.magnitude bits = f.infinity then .infinite negative
  else if exponent = 0 then .finite negative fraction f.minExponent
  else .finite negative (1 <<< f.fractionBits + fraction) (f.minExponent + exponent - 1)

/-! ### Rounding -/

/-- The integer nearest to `num / den`, the even one of two. -/
def roundHalfEven (num den : Nat) : Nat :=
  let q := num / den
  let twice := 2 * (num % den)
  if twice < den then q else if den < twice then q + 1 else q + q % 2

/-- The largest `l` with `2^l ≤ num / den`, for positive operands. -/
def floorLog2 (num den : Nat) : Int :=
  let l : Int := (Nat.log2 num : Int) - (Nat.log2 den : Int)
  if num <<< (-l).toNat < den <<< l.toNat then l - 1 else l

/-- The pattern of the representable number nearest to `num / den`. A significand that rounds up to
    the next power of two carries into the exponent field, and what exceeds the range is infinite. -/
def roundMagnitude (num den : Nat) : Nat :=
  if num = 0 then 0
  else
    let e := max (floorLog2 num den - f.fractionBits) f.minExponent
    let significand := roundHalfEven (num <<< (-e).toNat) (den <<< e.toNat)
    min ((e - f.minExponent).toNat <<< f.fractionBits + significand) f.infinity

/-- Rounds `±m · 2^e`. -/
def ofScaled (negative : Bool) (m : Nat) (e : Int) : Nat :=
  f.withSign negative (f.roundMagnitude (m <<< e.toNat) (1 <<< (-e).toNat))

def ofInt (i : Int) : Nat := f.ofScaled (i < 0) i.natAbs 0

/-! ### Arithmetic -/

/-- The first operand that is a NaN, made quiet, decides the result. -/
def propagate (x y : Nat) (otherwise : Nat) : Nat :=
  if f.isNan x then x ||| f.quietBit else if f.isNan y then y ||| f.quietBit else otherwise

def neg (x : Nat) : Nat := f.withSign (!f.isNegative x) (f.magnitude x)
def abs (x : Nat) : Nat := f.magnitude x

/-- `±m · 2^e` in units of `2^low`, for `low ≤ e`. -/
def aligned (negative : Bool) (m : Nat) (e low : Int) : Int :=
  let units : Nat := m <<< (e - low).toNat
  if negative then -(units : Int) else units

/-- The sum of two numbers. A sum that cancels is a positive zero. -/
def sum : Datum → Datum → Nat
  | .nan, _ | _, .nan => f.invalid
  | .infinite a, .infinite b => if a = b then f.withSign a f.infinity else f.invalid
  | .infinite a, _ | _, .infinite a => f.withSign a f.infinity
  | .finite a m e, .finite b n k =>
    let low := min e k
    let total := aligned a m e low + aligned b n k low
    if total = 0 then f.withSign (a && b) 0 else f.ofScaled (total < 0) total.natAbs low

def Datum.negate : Datum → Datum
  | .nan => .nan
  | .infinite a => .infinite (!a)
  | .finite a m e => .finite (!a) m e

def add (x y : Nat) : Nat := f.propagate x y (f.sum (f.decode x) (f.decode y))
def sub (x y : Nat) : Nat := f.propagate x y (f.sum (f.decode x) (f.decode y).negate)

def product : Datum → Datum → Nat
  | .nan, _ | _, .nan => f.invalid
  | .infinite a, .infinite b => f.withSign (a != b) f.infinity
  | .infinite a, .finite b m _ | .finite b m _, .infinite a =>
    if m = 0 then f.invalid else f.withSign (a != b) f.infinity
  | .finite a m e, .finite b n k => f.ofScaled (a != b) (m * n) (e + k)

def mul (x y : Nat) : Nat := f.propagate x y (f.product (f.decode x) (f.decode y))

def quotient : Datum → Datum → Nat
  | .nan, _ | _, .nan => f.invalid
  | .infinite _, .infinite _ => f.invalid
  | .infinite a, .finite b _ _ => f.withSign (a != b) f.infinity
  | .finite a _ _, .infinite b => f.withSign (a != b) 0
  | .finite a m e, .finite b n k =>
    if n = 0 then if m = 0 then f.invalid else f.withSign (a != b) f.infinity
    else
      f.withSign (a != b) (f.roundMagnitude (m <<< (e - k).toNat) (n <<< (k - e).toNat))

def div (x y : Nat) : Nat := f.propagate x y (f.quotient (f.decode x) (f.decode y))

/-- The exact remainder of the division that truncates; it has the sign of the dividend. -/
def remainder : Datum → Datum → Nat
  | .nan, _ | _, .nan => f.invalid
  | .infinite _, _ => f.invalid
  | .finite a m e, .infinite _ => f.ofScaled a m e
  | .finite a m e, .finite _ n k =>
    if n = 0 then f.invalid
    else
      let low := min e k
      f.ofScaled a ((m <<< (e - low).toNat) % (n <<< (k - low).toNat)) low

def mod (x y : Nat) : Nat := f.propagate x y (f.remainder (f.decode x) (f.decode y))

/-- The order of the numbers; a NaN is ordered with nothing. -/
def Datum.compare : Datum → Datum → Option Ordering
  | .nan, _ | _, .nan => none
  | .infinite a, .infinite b => some (if a = b then .eq else if a then .lt else .gt)
  | .infinite a, .finite .. => some (if a then .lt else .gt)
  | .finite .., .infinite a => some (if a then .gt else .lt)
  | .finite a m e, .finite b n k =>
    let low := min e k
    some (Ord.compare (aligned a m e low) (aligned b n k low))

def compare (x y : Nat) : Option Ordering := (f.decode x).compare (f.decode y)

/-- The smaller operand, the first of two equal ones, and the other one when one is a NaN. -/
def min (x y : Nat) : Nat :=
  if f.isNan x then y else if f.compare y x = some .lt then y else x

/-- The larger operand, the first of two equal ones, and the other one when one is a NaN. -/
def max (x y : Nat) : Nat :=
  if f.isNan x then y else if f.compare y x = some .gt then y else x

/-! ### Conversion -/

/-- The nearest number of another format. A NaN keeps its sign and the leading bits of its fraction. -/
def toFormat (g : FloatFormat) (x : Nat) : Nat :=
  match f.decode x with
  | .nan =>
    let fraction := x % 1 <<< f.fractionBits
    let kept := fraction <<< (g.fractionBits - f.fractionBits) >>> (f.fractionBits - g.fractionBits)
    g.withSign (f.isNegative x) (g.infinity + kept ||| g.quietBit)
  | .infinite a => g.withSign a g.infinity
  | .finite a m e => g.ofScaled a m e

/-- The number without its fraction, or the nearest end of `lo ≤ i ≤ hi`; a NaN becomes zero. -/
def toIntBetween (lo hi : Int) (x : Nat) : Int :=
  match f.decode x with
  | .nan => 0
  | .infinite a => if a then lo else hi
  | .finite a m e =>
    let truncated : Nat := m <<< e.toNat >>> (-e).toNat
    Max.max lo (Min.min hi (if a then -(truncated : Int) else truncated))

/-- Every number other than the two zeros is nonzero, a NaN too. -/
def isNonzero (x : Nat) : Bool := f.magnitude x != 0

end FloatFormat
end SegKernel
