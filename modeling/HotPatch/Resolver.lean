import HotPatch.Host
import HotPatch.Image
import HotPatch.Target

/-!
# Resolving targets

An address is trusted only when the bytes at it are those that the target names. A success is
remembered for the whole target, not for its name; a failure never is.
-/

namespace HotPatch

inductive ResolveError where
  | noStrategy (name : String)
  | notFound (name : String) (version : Version)
  | unreadable (name : String) (address : Address)
  | validation (name : String) (address : Address) (expected found : List UInt8)
  deriving DecidableEq, Repr

namespace ResolveError

def message : ResolveError → String
  | .noStrategy name => "target `" ++ name ++ "` has no address table and no pattern"
  | .notFound name v => "target `" ++ name ++ "` not found for version " ++ v.name
  | .unreadable name a => "target `" ++ name ++ "` at " ++ Text.address a ++ " is not readable"
  | .validation name a expected found =>
    "target `" ++ name ++ "` at " ++ Text.address a ++ " failed validation: expected " ++
      Text.byteList expected ++ ", found " ++ Text.byteList found

end ResolveError

/-- A place that was found, and whether its bytes were compared. -/
structure Resolved where
  address : Address
  validated : Bool
  deriving DecidableEq, Repr

structure Resolver where
  version : Version
  image : Image
  /-- What was found, at most one place for a target. -/
  cache : List (Target × Resolved)
  deriving DecidableEq, Repr

namespace Resolver

def new (version : Version) (image : Image) : Resolver := ⟨version, image, []⟩

def cached (r : Resolver) (t : Target) : Option Resolved :=
  (r.cache.find? fun e ↦ e.1 == t).map (·.2)

/-- Follows the displacement inside a match, counted from the end of its instruction. -/
def follow (t : Target) (m : Memory) (found : Address) : Except ResolveError Address :=
  match t.relative with
  | none => .ok found
  | some (place, length) =>
    let source := Address.wrap (found + place)
    match m.readBytes source 4 with
    | .error _ => .error (.unreadable t.name source)
    | .ok raw => .ok (Address.wrap (found + length + signed32 (ofLittleEndian raw)))

/-- Searches for the pattern of a target and adjusts what was found. -/
def scan (r : Resolver) (t : Target) (m : Memory) : Except ResolveError Address :=
  match t.pattern with
  | none => .error (.notFound t.name r.version)
  | some p =>
    let (start, stop) := t.window.getD (0, r.image.size)
    match r.image.scanWithin m p start stop with
    | none => .error (.notFound t.name r.version)
    | some found =>
      match follow t m found with
      | .error e => .error e
      | .ok a => .ok (Address.wrap (a + t.offset))

/-- The table decides, or the pattern where the table is silent. -/
def candidate (r : Resolver) (t : Target) (m : Memory) : Except ResolveError Address :=
  if t.hasStrategy then
    match t.address? r.version with
    | some a => .ok a
    | none => r.scan t m
  else .error (.noStrategy t.name)

/-- Compares the bytes at an address with those that the target names, if it names any. -/
def validate (t : Target) (m : Memory) (a : Address) : Except ResolveError Resolved :=
  match t.expected with
  | none => .ok ⟨a, false⟩
  | some expected =>
    match m.readBytes a expected.length with
    | .error _ => .error (.unreadable t.name a)
    | .ok found =>
      if found = expected then .ok ⟨a, true⟩ else .error (.validation t.name a expected found)

/-- The place of a target in memory as it is. -/
def locate (r : Resolver) (t : Target) (m : Memory) : Except ResolveError Resolved :=
  match r.candidate t m with
  | .error e => .error e
  | .ok a => validate t m a

/-- The place of a target: the one remembered, or else the one found now, which is remembered. -/
def resolve (r : Resolver) (t : Target) (h : Host) :
    Except ResolveError Resolved × Resolver × Host :=
  match r.cached t with
  | some found => (.ok found, r, h)
  | none =>
    match r.locate t h.memory with
    | .ok found =>
      (.ok found, { r with cache := (t, found) :: r.cache }, h.note .debug
        ("Resolved " ++ t.name ++ " to " ++ Text.address found.address ++
          s!" (validated: {found.validated})"))
    | .error (.validation name a expected found) =>
      (.error (.validation name a expected found), r, h.note .warn
        ("Target " ++ name ++ " at " ++ Text.address a ++ " does not match its fingerprint"))
    | .error e => (.error e, r, h)

end Resolver

/-- Where patches work: the host and the resolver that all of them share. -/
structure Site where
  resolver : Resolver
  host : Host

namespace Site

def note (s : Site) (level : LogLevel) (message : String) : Site :=
  { s with host := s.host.note level message }

def resolve (s : Site) (t : Target) : Except ResolveError Resolved × Site :=
  match s.resolver.resolve t s.host with
  | (r, resolver, host) => (r, ⟨resolver, host⟩)

end Site

end HotPatch
