import HotPatch.Patch.Lifecycle

/-!
# The manager

Owns all patches and the resolver that they share. Patches are built once from the registry, which
lists those that a host knows about in the order in which they were registered, and are known by
their names.
-/

namespace HotPatch

/-- A patch that can be built. -/
structure Entry where
  metadata : Metadata
  body : Body

abbrev Registry := List Entry

namespace Registry

def names (r : Registry) : List String := r.map (·.metadata.name)

def print (r : Registry) : String :=
  Text.record "PatchRegistry" [("entries", "[" ++ ", ".intercalate (r.map fun e ↦
    "RegistryEntry \x7b metadata: " ++ e.metadata.print ++ ", .. \x7d") ++ "]")]

/-- Builds every patch, without those whose name is in `taken` or was used before. -/
def build : Registry → List String → Host → List Patch × Host
  | [], _, h => ([], h)
  | e :: rest, taken, h =>
    if taken.contains e.metadata.name then
      build rest taken (h.note .warn
        ("Patch " ++ e.metadata.name ++ " is registered more than once; ignoring duplicate"))
    else
      match build rest (e.metadata.name :: taken) h with
      | (patches, h) => (.ofBody e.metadata e.body :: patches, h)

end Registry

structure Manager where
  resolver : Resolver
  registry : Option Registry
  patches : List Patch

namespace Manager

def new (registry : Registry) (resolver : Resolver) : Manager := ⟨resolver, some registry, []⟩

def names (m : Manager) : List String := m.patches.map Patch.name

def print (m : Manager) : String :=
  Text.record "PatchManager" [("version", m.resolver.version.label),
    ("patches", Text.quotedList m.names)]

/-- Builds every registered patch. The answer is their number, zero when that was done before. -/
def instantiate (m : Manager) (h : Host) : Nat × Manager × Host :=
  match m.registry with
  | none => (0, m, h.note .debug "Patches already instantiated")
  | some registry =>
    match registry.build [] h with
    | (patches, h) =>
      (patches.length, { m with registry := none, patches := m.patches ++ patches },
        h.note .info
          (s!"Instantiated {patches.length} patch(es) for " ++ m.resolver.version.name))

def find? (m : Manager) (name : String) : Option Patch := m.patches.find? fun p ↦ p.name == name

/-- Acts on the first patch of the given name, if there is one. -/
def actFirst {α : Type} (name : String) (f : Patch → Site → α × Patch × Site) :
    List Patch → Site → Option α × List Patch × Site
  | [], s => (none, [], s)
  | p :: rest, s =>
    if p.name = name then
      match f p s with
      | (r, p, s) => (some r, p :: rest, s)
    else
      match actFirst name f rest s with
      | (r, rest, s) => (r, p :: rest, s)

/-- Acts on the patch of the given name, if there is one. -/
def act {α : Type} (m : Manager) (name : String) (f : Patch → Site → α × Patch × Site) (h : Host) :
    Option α × Manager × Host :=
  match actFirst name f m.patches ⟨m.resolver, h⟩ with
  | (r, patches, s) => (r, { m with resolver := s.resolver, patches }, s.host)

def isEnabled (m : Manager) (name : String) : Option Bool := (m.find? name).map (·.enabled)

/-- Installs a patch by request. The answer is whether it is enabled afterwards. -/
def enable (m : Manager) (name : String) (h : Host) : Bool × Manager × Host :=
  match m.act name (fun p s ↦ p.touch.install s) h with
  | (some r, m, h) => (r, m, h)
  | (none, m, h) => (false, m, h.note .warn ("Cannot enable unknown patch " ++ name))

/-- Uninstalls a patch by request. The answer is whether it is disabled afterwards. -/
def disable (m : Manager) (name : String) (h : Host) : Bool × Manager × Host :=
  match m.act name (fun p s ↦ p.touch.uninstall s) h with
  | (some r, m, h) => (r, m, h)
  | (none, m, h) => (false, m, h.note .warn ("Cannot disable unknown patch " ++ name))

def getSetting (m : Manager) (patch setting : String) : Except SettingError Setting.Value :=
  match m.find? patch with
  | none => .error (.unknownPatch patch)
  | some p =>
    match p.setting setting with
    | some v => .ok v
    | none => .error (.unknownSetting setting)

/-- Changes a setting of a patch. The answer is the value that was stored. -/
def setSetting (m : Manager) (patch setting : String) (v : Setting.Value) (h : Host) :
    Except SettingError Setting.Value × Manager × Host :=
  match m.act patch (fun p s ↦ p.setSetting setting v s) h with
  | (some r, m, h) => (r, m, h)
  | (none, m, h) => (.error (.unknownPatch patch), m, h)

def updateEach : List Patch → Site → List Patch × Site
  | [], s => ([], s)
  | p :: rest, s =>
    match p.update s with
    | (p, s) =>
      match updateEach rest s with
      | (rest, s) => (p :: rest, s)

def update (m : Manager) (h : Host) : Manager × Host :=
  match updateEach m.patches ⟨m.resolver, h⟩ with
  | (patches, s) => ({ m with resolver := s.resolver, patches }, s.host)

/-- Uninstalls patches, the last first. The answer is whether all are disabled. -/
def uninstallEach : List Patch → Site → Bool × List Patch × Site
  | [], s => (true, [], s)
  | p :: rest, s =>
    match uninstallEach rest s with
    | (all, rest, s) =>
      match p.uninstall s with
      | (r, p, s) => (r && all, p :: rest, s)

/-- Uninstalls every patch, in the reverse order of registration. -/
def disableAll (m : Manager) (h : Host) : Bool × Manager × Host :=
  match uninstallEach m.patches ⟨m.resolver, h⟩ with
  | (all, patches, s) => (all, { m with resolver := s.resolver, patches }, s.host)

/-- Finds a target with the resolver that the patches share. -/
def resolve (m : Manager) (t : Target) (h : Host) : Except ResolveError Resolved × Manager × Host :=
  match m.resolver.resolve t h with
  | (r, resolver, h) => (r, { m with resolver }, h)

/-- The end of a manager: its patches end in order. -/
def release (m : Manager) (h : Host) : Host :=
  (m.patches.foldl (fun s p ↦ p.release s) ⟨m.resolver, h⟩ : Site).host

end Manager

end HotPatch
