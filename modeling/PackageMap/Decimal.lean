/-!
# Decimal digits

The number that digits write, and the bound of the numbers that a word of 64 bits takes.
-/

namespace PackageMap

/-- The number that a list of decimal digits writes. -/
def digitsValue (ds : List Char) : Nat := ds.foldl (fun n d => 10 * n + (d.toNat - 48)) 0

/-- The number of words of 64 bits. -/
def wordLimit : Nat := 1 <<< 64

end PackageMap
