import Prosody.Scheme

/-!
# The sites of a scheme

Every construct of a scheme is a site, and so is the scheme as a whole. Sites are numbered in
reading order, the whole first. A site knows its neighbours and where scanning may go from it:
onward once its syllable is read, or past it when its construct can be left out or done again.
-/

namespace Prosody

/-- What stands at a site. -/
inductive Form where
  | whole
  | syllable (mark : Mark) (quantifier : Option Quantifier)
  | group (quantifier : Quantifier)
  deriving DecidableEq

structure Site where
  number : Nat
  /-- Where the construct starts in the pattern; the whole has no place. -/
  place : Option Nat
  form : Form
  parent : Option Nat
  /-- Rank among the children of the parent. -/
  slot : Nat
  children : List Nat
  /-- The first syllable in the construct, or the syllable itself. -/
  entry : Nat
  sibling : Option Nat
  /-- The last unquantified syllable among the children. -/
  lastPlain : Option Nat
  /-- The first unquantified syllable of its parent. -/
  leads : Bool
  /-- The syllable that is due once this construct is read. -/
  onward : Option Nat
  /-- The syllable that may stand in for this one at the same symbol of a line. -/
  bypass : Option Nat
  deriving DecidableEq

namespace Site

def mark? (s : Site) : Option Mark :=
  match s.form with
  | .syllable m _ => some m
  | _ => none

def quantifier? (s : Site) : Option Quantifier :=
  match s.form with
  | .whole => none
  | .syllable _ q => q
  | .group q => some q

def isPlain (s : Site) : Bool :=
  match s.form with
  | .syllable _ none => true
  | _ => false

def isLoop (s : Site) : Bool := s.quantifier? == some .many

/-- Scanning may leave the construct around such a site without reading the site. -/
def isVariable (s : Site) : Bool := s.leads || !s.isPlain

/-- Sites are told apart by their places alone. -/
def samePlace (s t : Site) : Bool := s.place == t.place

/-- The number of different places in a list of sites. -/
def countPlaces (sites : List Site) : Nat := (sites.map place).eraseDups.length

end Site

/-- What the children of a construct inherit from it. -/
structure Setting where
  parent : Nat
  /-- The first syllable in the parent. -/
  entry : Nat
  /-- The parent may be done again. -/
  loops : Bool
  /-- The syllable that is due once the parent is left. -/
  exit : Option Nat
  /-- The parent is the last child of a construct that may be done again. -/
  closes : Bool
  deriving DecidableEq

namespace Setting

/-- The syllable that is due after a child, when the siblings `rest` from number `n` follow it. -/
def leave (σ : Setting) (n : Nat) (rest : Scheme) : Option Nat :=
  if rest = .done then
    if σ.loops then some σ.entry else σ.exit
  else some (n + rest.lead)

end Setting

namespace Scheme

/-- The sites of siblings from number `n` and slot `k` on. The flag `led` says that an unquantified
syllable stands before them. -/
def sitesFrom (σ : Setting) (n k : Nat) (led : Bool) : Scheme → List Site
  | done => []
  | syllable place m q rest =>
    let due := σ.leave (n + 1) rest
    { number := n
      place := some place
      form := .syllable m q
      parent := some σ.parent
      slot := k
      children := []
      entry := n
      sibling := if rest = done then none else some (n + 1)
      lastPlain := none
      leads := q.isNone && !led
      onward := if q = some .many then some n else due
      bypass := if q.isSome then due else if !led || σ.closes then σ.exit else none } ::
    rest.sitesFrom σ (n + 1) (k + 1) (led || q.isNone)
  | group place q inside rest =>
    let next := n + 1 + inside.size
    let due := σ.leave next rest
    let inner : Setting :=
      { parent := n
        entry := n + 1 + inside.lead
        loops := q.isMany
        exit := due
        closes := σ.loops && rest = done }
    { number := n
      place := some place
      form := .group q
      parent := some σ.parent
      slot := k
      children := inside.tops (n + 1)
      entry := n + 1 + inside.lead
      sibling := if rest = done then none else some next
      lastPlain := inside.lastPlain? (n + 1)
      leads := false
      onward := due
      bypass := σ.exit } ::
    (inside.sitesFrom inner (n + 1) 0 false ++ rest.sitesFrom σ next (k + 1) led)

/-- Nothing is due after the whole, and it is not done again. -/
def setting (s : Scheme) : Setting :=
  { parent := 0
    entry := 1 + s.lead
    loops := false
    exit := none
    closes := false }

def root (s : Scheme) : Site :=
  { number := 0
    place := none
    form := .whole
    parent := none
    slot := 0
    children := s.tops 1
    entry := 1 + s.lead
    sibling := none
    lastPlain := s.lastPlain? 1
    leads := false
    onward := none
    bypass := none }

/-- All sites in the order of their numbers. -/
def sites (s : Scheme) : List Site := s.root :: s.sitesFrom s.setting 1 0 false

theorem length_sitesFrom (s : Scheme) (σ : Setting) (n k : Nat) (led : Bool) :
    (s.sitesFrom σ n k led).length = s.size := by
  induction s generalizing σ n k led with
  | done => rfl
  | syllable p m q rest ih => simp [sitesFrom, size, ih]
  | group p q inside rest ihi ih => simp [sitesFrom, size, ihi, ih]

theorem length_sites (s : Scheme) : s.sites.length = s.size + 1 := by
  simp [sites, length_sitesFrom]

end Scheme

end Prosody
