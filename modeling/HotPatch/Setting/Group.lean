import HotPatch.Setting.Basic

/-!
# The settings of a patch

Settings are written and restored together. When one of them cannot be restored, those before it are
written again.
-/

namespace HotPatch.Setting

def writeAll : List Setting → Site → Except SettingError Unit × List Setting × Site
  | [], s => (.ok (), [], s)
  | x :: rest, s =>
    match x.writeLive s with
    | (.error e, x, s) => (.error e, x :: rest, s)
    | (.ok _, x, s) =>
      match writeAll rest s with
      | (r, rest, s) => (r, x :: rest, s)

def writeAgain : List Setting → Site → List Setting × Site
  | [], s => ([], s)
  | x :: rest, s =>
    match x.writeLive s with
    | (r, x, s) =>
      let s :=
        match r with
        | .ok _ => s
        | .error e => s.note .error ("Failed to rewrite setting `" ++ x.name ++ "`: " ++ e.message)
      match writeAgain rest s with
      | (rest, s) => (x :: rest, s)

/-- Restores settings in order until one fails; those restored before, which `done` lists the latest
first, are then written again. -/
def restoreEach : List Setting → List Setting → Site →
    Except SettingError Unit × List Setting × Site
  | done, [], s => (.ok (), done.reverse, s)
  | done, x :: rest, s =>
    match x.restoreLive s.host with
    | (.ok (), x, h) => restoreEach (x :: done) rest { s with host := h }
    | (.error e, x, h) =>
      match writeAgain done.reverse { s with host := h } with
      | (done, s) => (.error e, done ++ x :: rest, s)

def restoreAll (settings : List Setting) (s : Site) :
    Except SettingError Unit × List Setting × Site :=
  restoreEach [] settings s

/-- Writes the settings that wait for an address; failures are only reported. -/
def writePending (patch : String) : List Setting → Site → List Setting × Site
  | [], s => ([], s)
  | x :: rest, s =>
    if x.pending then
      match x.writeLive s with
      | (r, x, s) =>
        let s :=
          match r with
          | .ok _ => s
          | .error e => s.note .warn ("Deferred setting of " ++ patch ++ ": " ++ e.message)
        match writePending patch rest s with
        | (rest, s) => (x :: rest, s)
    else
      match writePending patch rest s with
      | (rest, s) => (x :: rest, s)

/-- Gives a setting a value, which is written at once if it is to be live. A failed write leaves the
previous value. -/
def change (x : Setting) (v : Value) (live : Bool) (s : Site) :
    Except SettingError Value × Setting × Site :=
  match x.assign v with
  | .error e => (.error e, x, s)
  | .ok y =>
    if live then
      match y.writeLive s with
      | (.ok _, z, s) => (.ok z.value, z, s)
      | (.error e, z, s) =>
        match z.assign x.value with
        | .ok z => (.error e, z, s)
        | .error e => (.error e, z, s)
    else (.ok y.value, y, s)

def changeFirst (name : String) (v : Value) (live : Bool) : List Setting → Site →
    Except SettingError Value × List Setting × Site
  | [], s => (.error (.unknownSetting name), [], s)
  | x :: rest, s =>
    if x.name = name then
      match change x v live s with
      | (r, x, s) => (r, x :: rest, s)
    else
      match changeFirst name v live rest s with
      | (r, rest, s) => (r, x :: rest, s)

def named? (settings : List Setting) (name : String) : Option Setting :=
  settings.find? fun s ↦ s.name == name

end HotPatch.Setting
