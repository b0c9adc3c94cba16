import HotPatch.Patch.Basic

/-!
# The life of a patch

Being installed and being uninstalled either succeed or leave the host as it was, as far as that can
be done. The reason of a failure is kept until the next success.
-/

namespace HotPatch

namespace Patch

def fail (p : Patch) (action : String) (e : PatchError) (s : Site) : Patch × Site :=
  ({ p with lastError := some e.message },
    s.note .warn ("Failed to " ++ action ++ " " ++ p.name ++ ": " ++ e.message))

/-! ## Installing -/

/-- Undoes what a failed attempt to install applied. Changes that cannot be undone are kept. -/
def abandon (p : Patch) (changes : List Change) (e : PatchError) (s : Site) :
    Bool × Patch × Site :=
  match Setting.restoreAll p.settings s with
  | (r, settings, s) =>
    let s :=
      match r with
      | .ok () => s
      | .error e =>
        s.note .error ("Failed to restore settings of " ++ p.name ++ ": " ++ e.message)
    let p := { p with settings }
    match Change.revertAll changes s.host with
    | (.ok (), changes, h) =>
      match p.fail "install" e { s with host := h } with
      | (p, s) => (false, p, { s with host := Change.releaseAll changes s.host })
    | (.error r, changes, h) =>
      let h := h.note .error ("Failed to roll back " ++ p.name ++
        ", keeping its changes for a later uninstall: " ++ r.message)
      match { p with changes }.fail "install" e { s with host := h } with
      | (p, s) => (false, p, s)

def attempt (p : Patch) (s : Site) : Bool × Patch × Site :=
  match (p.body.install p.installs).run p.settings [] s with
  | (outcome, changes, s) =>
    let p := { p with installs := p.installs + 1 }
    match outcome.toExcept with
    | .error e => p.abandon changes e s
    | .ok () =>
      match Setting.writeAll p.settings s with
      | (.error e, settings, s) => { p with settings }.abandon changes (.setting e) s
      | (.ok (), settings, s) =>
        (true, { p with settings, changes, enabled := true, lastError := none },
          s.note .info ("Installed " ++ p.name ++ s!" ({changes.length} change(s))"))

/-- Undoes the changes that an earlier failure left. -/
def clearLeftovers (p : Patch) (s : Site) : Except PatchError Unit × Patch × Site :=
  match Change.revertAll p.changes s.host with
  | (.ok (), changes, h) =>
    (.ok (), { p with changes := [] }, { s with host := Change.releaseAll changes h })
  | (.error e, changes, h) => (.error e, { p with changes }, { s with host := h })

/-- Installs the patch, unless it is enabled. The answer is whether it is enabled afterwards. -/
def install (p : Patch) (s : Site) : Bool × Patch × Site :=
  if p.enabled then (true, p, s)
  else
    match p.clearLeftovers s with
    | (.error e, p, s) =>
      match p.fail "install" e s with
      | (p, s) => (false, p, s)
    | (.ok (), p, s) =>
      if p.metadata.versions.contains s.resolver.version then p.attempt s
      else
        match p.fail "install" (.unsupportedVersion s.resolver.version) s with
        | (p, s) => (false, p, s)

/-! ## Uninstalling -/

def farewell (p : Patch) (s : Site) : Site :=
  let s :=
    match p.body.farewell with
    | some e => { s with host := s.host.report e }
    | none => s
  if p.body.farewellAborts then s.note .warn (p.name ++ " panicked after uninstall") else s

/-- Undoes the changes, settings being restored. When that fails, the settings of an enabled patch
are written again. -/
def uninstallChanges (p : Patch) (s : Site) : Except PatchError Unit × Patch × Site :=
  match Change.revertAll p.changes s.host with
  | (.ok (), changes, h) =>
    (.ok (), { p with changes := [] }, { s with host := Change.releaseAll changes h })
  | (.error e, changes, h) =>
    let p := { p with changes }
    let s := { s with host := h }
    if p.enabled then
      match Setting.writeAll p.settings s with
      | (.ok (), settings, s) => (.error e, { p with settings }, s)
      | (.error w, settings, s) =>
        (.error e, { p with settings },
          s.note .error ("Failed to rewrite settings of " ++ p.name ++ ": " ++ w.message))
    else (.error e, p, s)

def undo (p : Patch) (s : Site) : Except PatchError Unit × Patch × Site :=
  match Setting.restoreAll p.settings s with
  | (.error e, settings, s) => (.error (.setting e), { p with settings }, s)
  | (.ok (), settings, s) => { p with settings }.uninstallChanges s

/-- Uninstalls the patch, or undoes what it left behind. The answer is whether it is disabled and
has nothing left afterwards. -/
def uninstall (p : Patch) (s : Site) : Bool × Patch × Site :=
  if !p.enabled && p.changes.isEmpty then (true, p, s)
  else
    match p.undo s with
    | (.error e, p, s) =>
      match p.fail "uninstall" e s with
      | (p, s) => (false, p, s)
    | (.ok (), p, s) =>
      let p := { p with enabled := false, lastError := none }
      (true, p, (p.farewell s).note .info ("Uninstalled " ++ p.name))

/-! ## Updating -/

/-- Retries what was put off: settings that wait for an address, and whatever the body has to do. A
failing body has its own changes undone. -/
def update (p : Patch) (s : Site) : Patch × Site :=
  if p.enabled then
    match Setting.writePending p.name p.settings s with
    | (settings, s) =>
      match (p.body.update p.updates).run settings [] s with
      | (outcome, changes, s) =>
        let p := { p with settings, updates := p.updates + 1 }
        match outcome.toExcept with
        | .ok () => ({ p with changes := p.changes ++ changes }, s)
        | .error e =>
          match Change.revertAll changes s.host with
          | (.ok (), changes, h) =>
            p.fail "update" e { s with host := Change.releaseAll changes h }
          | (.error r, changes, h) =>
            let h := h.note .error ("Failed to roll back update of " ++ p.name ++
              ", keeping its changes for uninstall: " ++ r.message)
            { p with changes := p.changes ++ changes }.fail "update" e { s with host := h }
  else (p, s)

/-! ## Settings -/

/-- Changes a setting. The answer is the value that was stored. -/
def setSetting (p : Patch) (name : String) (v : Setting.Value) (s : Site) :
    Except SettingError Setting.Value × Patch × Site :=
  match Setting.changeFirst name v p.enabled p.settings s with
  | (.error e, settings, s) => (.error e, { p with settings }, s)
  | (.ok v, settings, s) =>
    (.ok v, { p with settings }, s.note .debug (p.name ++ "." ++ name ++ " = " ++ v.print))

/-- The end of a patch: its changes end in order. Settings stay as they are. -/
def release (p : Patch) (s : Site) : Site :=
  { s with host := Change.releaseAll p.changes s.host }

end Patch

end HotPatch
