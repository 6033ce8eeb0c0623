import Prosody.Gauge

/-!
# The catalogue of metres

Nine metres with their patterns and borders. Their order decides between metres that fit a poem
equally well.
-/

namespace Prosody

structure Metre where
  name : String
  pattern : List Char
  border : Nat

namespace Metre

def iambos : Metre := ⟨"iambos", "(us)*(uS)(U)?(U)?".toList, 7⟩

def choreios : Metre := ⟨"choreios", "(su)*(S)(U)?(U)?".toList, 7⟩

def daktylos : Metre := ⟨"daktylos", "(suu)*(S)(U)?(U)?".toList, 7⟩

def amphibrachys : Metre := ⟨"amphibrachys", "(usu)*(uS)(U)?(U)?".toList, 7⟩

def anapaistos : Metre := ⟨"anapaistos", "(uus)*(uuS)(U)?(U)?".toList, 7⟩

def dolnik3 : Metre := ⟨"dolnik3", "(u)?(u)?((su)(u)?)*(S)(U)?(U)?".toList, 3⟩

def dolnik2 : Metre := ⟨"dolnik2", "(u)?(u)?((s)(u)?)*(S)(U)?(U)?".toList, 3⟩

def taktovik3 : Metre := ⟨"taktovik3", "(u)?(u)?((su)(u)?(u)?)*(S)(U)?(U)?".toList, 2⟩

def taktovik2 : Metre := ⟨"taktovik2", "(u)?(u)?((s)(u)?(u)?)*(S)(U)?(U)?".toList, 2⟩

def catalogue : List Metre :=
  [iambos, choreios, daktylos, amphibrachys, anapaistos, dolnik3, dolnik2, taktovik3, taktovik2]

def gauge (m : Metre) : Except Fault Gauge := Gauge.ofPattern m.pattern m.border

/-- The gauges of some metres under their names, or the fault of the first bad pattern. -/
def gauges : List Metre → Except Fault (List (String × Gauge))
  | [] => .ok []
  | m :: metres =>
    match m.gauge with
    | .error fault => .error fault
    | .ok g =>
      match gauges metres with
      | .error fault => .error fault
      | .ok rest => .ok ((m.name, g) :: rest)

end Metre

end Prosody
