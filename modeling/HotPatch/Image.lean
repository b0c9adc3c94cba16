import HotPatch.Memory.Region
import HotPatch.Pattern.Basic

/-!
# Images

The span of a loaded program. Only its readable parts are searched; readable regions that touch are
searched as one, so that a match may straddle them.
-/

namespace HotPatch

structure Image where
  base : Address
  size : Nat
  deriving DecidableEq, Repr

namespace Memory

/-- The readable parts of `span` in a list of regions, after the part `last`, which grows when the
next one touches it. -/
def readableParts (span : Span) (last : Option Span) : List Region → List Span
  | [] => last.toList
  | r :: rs =>
    let part := r.clip span
    if !r.page.protection.read || part.stop ≤ part.start then readableParts span last rs
    else
      match last with
      | none => readableParts span (some part) rs
      | some run =>
        if run.stop = part.start then readableParts span (some ⟨run.start, part.stop⟩) rs
        else run :: readableParts span (some part) rs

end Memory

namespace Image

def stop (im : Image) : Address := im.base + im.size

/-- Whether `[a, a + len)` lies inside the image, without running over the address space. -/
def Contains (im : Image) (a : Address) (len : Nat) : Prop :=
  im.base ≤ a ∧ a + len < addressLimit ∧ a + len ≤ im.stop

instance (im : Image) (a : Address) (len : Nat) : Decidable (im.Contains a len) :=
  inferInstanceAs (Decidable (_ ∧ _ ∧ _))

/-- The part of the image between two offsets, which may lie beyond its end. -/
def span (im : Image) (start stop : Nat) : Span :=
  ⟨im.base + min start im.size, im.base + min stop im.size⟩

/-- The readable parts of the image between two offsets, merged where they touch. -/
def readableRanges (im : Image) (m : Memory) (start stop : Nat) : List Span :=
  let s := im.span start stop
  if s.start < s.stop then Memory.readableParts s none (m.regions s) else []

def scanWithin (im : Image) (m : Memory) (p : Pattern) (start stop : Nat) : Option Address :=
  (im.readableRanges m start stop).findSome? fun s ↦
    (p.find (m.bytes s.start (s.stop - s.start))).map (s.start + ·)

def scan (im : Image) (m : Memory) (p : Pattern) : Option Address := im.scanWithin m p 0 im.size

end Image

end HotPatch
