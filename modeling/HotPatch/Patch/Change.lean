import HotPatch.Hook.Batch
import HotPatch.Pattern.Basic
import HotPatch.Setting.Basic
import HotPatch.Transaction

/-!
# Changes

What was applied on behalf of a patch: finished transactions and attached batches, in order. They
are undone in reverse order; when one cannot be undone, those after it are applied again.
-/

namespace HotPatch

/-- Whatever can keep a patch from being installed or uninstalled. -/
inductive PatchError where
  | pattern (e : PatternError)
  | resolve (e : ResolveError)
  | memory (e : MemoryError)
  | hooks (e : BatchError)
  | setting (e : SettingError)
  | unsupportedVersion (v : Version)
  /-- The body broke off; nothing may be known of the reason. -/
  | aborted (message : Option String)
  | other (message : String)
  deriving DecidableEq, Repr

namespace PatchError

def message : PatchError → String
  | .pattern e => e.message
  | .resolve e => e.message
  | .memory e => e.message
  | .hooks e => e.message
  | .setting e => e.message
  | .unsupportedVersion v => "not supported on " ++ v.name
  | .aborted message => "patch panicked: " ++ message.getD "unknown panic"
  | .other message => message

end PatchError

inductive Change where
  | writes (t : Transaction)
  | hooks (b : Batch)

namespace Change

def revert (c : Change) (h : Host) : Except PatchError Unit × Change × Host :=
  match c with
  | .writes t =>
    match t.rollback h with
    | (.ok (), t, h) => (.ok (), .writes t, h)
    | (.error e, t, h) => (.error (.memory e), .writes t, h)
  | .hooks b =>
    match b.detach h with
    | (.ok (), b, h) => (.ok (), .hooks b, h)
    | (.error e, b, h) => (.error (.hooks e), .hooks b, h)

def reapply (c : Change) (h : Host) : Except PatchError Unit × Change × Host :=
  match c with
  | .writes t =>
    match t.reapply h with
    | (.ok (), t, h) => (.ok (), .writes t, h)
    | (.error e, t, h) => (.error (.memory e), .writes t, h)
  | .hooks b =>
    match b.attach h with
    | (.ok (), b, h) => (.ok (), .hooks b, h)
    | (.error e, b, h) => (.error (.hooks e), .hooks b, h)

def release (c : Change) (h : Host) : Host :=
  match c with
  | .writes t => t.release h
  | .hooks b => b.release h

def releaseAll : List Change → Host → Host
  | [], h => h
  | c :: rest, h => releaseAll rest (c.release h)

/-- Applies changes again, in order; failures are only reported. -/
def reapplyEach : List Change → Host → List Change × Host
  | [], h => ([], h)
  | c :: rest, h =>
    match c.reapply h with
    | (r, c, h) =>
      let h :=
        match r with
        | .ok () => h
        | .error e =>
          h.note .error ("Failed to re-apply change after aborted revert: " ++ e.message)
      match reapplyEach rest h with
      | (rest, h) => (c :: rest, h)

/-- Reverts changes, the latest first, `done` being those reverted so far in the order in which they
were made. The answer lists all of them in that order. -/
def revertEach : List Change → List Change → Host → Except PatchError Unit × List Change × Host
  | [], done, h => (.ok (), done, h)
  | c :: rest, done, h =>
    match c.revert h with
    | (.ok (), c, h) => revertEach rest (c :: done) h
    | (.error e, c, h) =>
      match reapplyEach done h with
      | (done, h) => (.error e, rest.reverse ++ c :: done, h)

def revertAll (cs : List Change) (h : Host) : Except PatchError Unit × List Change × Host :=
  revertEach cs.reverse [] h

end Change

end HotPatch
