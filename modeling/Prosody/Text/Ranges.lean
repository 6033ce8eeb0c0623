/-!
# Sets of characters given by ranges

A property of characters is a list of ranges of scalar values, ends included.
-/

namespace Prosody.Text

abbrev Ranges := List (Nat × Nat)

def Ranges.contains (r : Ranges) (c : Char) : Bool :=
  r.any fun (low, high) => low ≤ c.toNat && c.toNat ≤ high

end Prosody.Text
