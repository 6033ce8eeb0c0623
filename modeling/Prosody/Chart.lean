import Prosody.Site
import Std.Data.TreeSet

/-!
# Charts

A chart holds the sites of a scheme by number. The alternatives of a site are the site itself and
what stands in for it, one bypass after another, until a site comes back.
-/

namespace Prosody

structure Chart where
  sites : Array Site

def Scheme.chart (s : Scheme) : Chart := ⟨s.sites.toArray⟩

namespace Chart

def site? (c : Chart) (n : Nat) : Option Site := c.sites[n]?

/-- At most `fuel` sites of the bypass chain from `n`, which ends before a number of `seen`. -/
def chain (c : Chart) : Nat → Std.TreeSet Nat → Option Nat → List Site
  | 0, _, _ => []
  | _, _, none => []
  | fuel + 1, seen, some n =>
    if seen.contains n then []
    else match c.site? n with
      | none => []
      | some s => s :: c.chain fuel (seen.insert n) s.bypass

/-- A chain without repetition is no longer than the chart. -/
def alternatives (c : Chart) (n : Nat) : List Site := c.chain c.sites.size ∅ (some n)

end Chart

/-- The ways to move from one site to another. -/
inductive Move where
  | top
  | entry
  | lastPlain
  | firstChild
  | lastChild
  | parent
  | sibling
  | onward
  | bypass
  | lastAlternative
  deriving DecidableEq

namespace Chart

/-- The number of the site that a move leads to. -/
def target? (c : Chart) (s : Site) : Move → Option Nat
  | .top => some 0
  | .entry => some s.entry
  | .lastPlain => s.lastPlain
  | .firstChild => s.children.head?
  | .lastChild => s.children.getLast?
  | .parent => s.parent
  | .sibling => s.sibling
  | .onward => s.onward
  | .bypass => s.bypass
  | .lastAlternative => (c.alternatives s.number).getLast?.map Site.number

/-- A move without a target stays where it is. -/
def move (c : Chart) (s : Site) (m : Move) : Bool × Site :=
  match (c.target? s m).bind c.site? with
  | some t => (true, t)
  | none => (false, s)

/-- The site after each move, and whether the move had a target. -/
def walk (c : Chart) (s : Site) : List Move → List (Bool × Site)
  | [] => []
  | m :: moves =>
    let step := c.move s m
    step :: c.walk step.2 moves

end Chart

end Prosody
