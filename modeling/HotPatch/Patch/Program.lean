import HotPatch.Patch.Change
import HotPatch.Setting.Group

/-!
# Programs

The body of a patch acts on the host only in a few ways, each of which leaves a record of what was
applied. A program says what the body does next, given what came of it so far; a body that breaks
off leaves to its patch whatever was recorded until then.
-/

namespace HotPatch

inductive Outcome where
  | done
  | failed (e : PatchError)
  | aborted (message : Option String)
  deriving DecidableEq, Repr

namespace Outcome

/-- A body that broke off failed, as far as its patch is concerned. -/
def toExcept : Outcome → Except PatchError Unit
  | .done => .ok ()
  | .failed e => .error e
  | .aborted message => .error (.aborted message)

end Outcome

inductive Edit where
  | done
  | fail (e : PatchError)
  | abort (message : Option String)
  | write (w : Write) (next : Except MemoryError Unit → Edit)
  | commit (next : Edit)
  | rollback (next : Except MemoryError Unit → Edit)
  /-- The host writes in between. -/
  | poke (a : Address) (bs : List UInt8) (next : Edit)

namespace Edit

def run : Edit → Transaction → Host → Outcome × Transaction × Host
  | .done, t, h => (.done, t, h)
  | .fail e, t, h => (.failed e, t, h)
  | .abort message, t, h => (.aborted message, t, h)
  | .write w next, t, h =>
    match t.perform w h with
    | (r, t, h) => (next r).run t h
  | .commit next, t, h => next.run t.commit h
  | .rollback next, t, h =>
    match t.rollback h with
    | (r, t, h) => (next r).run t h
  | .poke a bs next, t, h => next.run t (h.poke a bs)

/-- Goes on after a success and passes a failure on. -/
def after (next : Edit) : Except MemoryError Unit → Edit
  | .ok () => next
  | .error e => .fail (.memory e)

end Edit

structure Context where
  version : Version
  image : Image
  settings : List Setting
  /-- The number of changes recorded so far. -/
  applied : Nat

namespace Context

def setting (c : Context) (name : String) : Option Setting.Value :=
  (Setting.named? c.settings name).map (·.value)

end Context

inductive Program where
  | done
  | fail (e : PatchError)
  | abort (message : Option String)
  | resolve (t : Target) (next : Except ResolveError Address → Program)
  | transaction (e : Edit) (next : Except PatchError Unit → Program)
  | hooks (plans : List HookPlan) (next : Except PatchError Unit → Program)
  | inspect (next : Context → Program)
  | report (e : Event) (next : Program)
  /-- The host writes in between. -/
  | poke (a : Address) (bs : List UInt8) (next : Program)

namespace Program

/-- Runs an edit on a transaction of its own. A failed edit is rolled back at once; a success is
committed and recorded. An edit that breaks off leaves the transaction to its end. -/
def transact (e : Edit) (changes : List Change) (h : Host) : Outcome × List Change × Host :=
  match e.run .empty h with
  | (.done, t, h) => (.done, changes ++ [.writes t.commit], h)
  | (.failed e, t, h) =>
    match t.rollback h with
    | (.ok (), t, h) => (.failed e, changes, t.release h)
    | (.error r, t, h) =>
      (.failed e, changes,
        t.release (h.note .error ("Failed to roll back transaction: " ++ r.message)))
  | (.aborted message, t, h) => (.aborted message, changes, t.release h)

/-- Attaches a new batch. It is recorded if it is attached afterwards, were it only in part. -/
def hook (plans : List HookPlan) (changes : List Change) (h : Host) :
    Except PatchError Unit × List Change × Host :=
  match Hook.ofPlans plans h with
  | (ks, h) =>
    match (Batch.ofHooks ks).attach h with
    | (r, b, h) =>
      let r : Except PatchError Unit :=
        match r with
        | .ok () => .ok ()
        | .error e => .error (.hooks e)
      if b.attached then (r, changes ++ [.hooks b], h) else (r, changes, b.release h)

/-- Carries a program out, `changes` being what was recorded so far. -/
def run (settings : List Setting) : Program → List Change → Site → Outcome × List Change × Site
  | .done, changes, s => (.done, changes, s)
  | .fail e, changes, s => (.failed e, changes, s)
  | .abort message, changes, s => (.aborted message, changes, s)
  | .resolve t next, changes, s =>
    match s.resolve t with
    | (.ok found, s) => (next (.ok found.address)).run settings changes s
    | (.error e, s) => (next (.error e)).run settings changes s
  | .transaction e next, changes, s =>
    match transact e changes s.host with
    | (.done, changes, h) => (next (.ok ())).run settings changes { s with host := h }
    | (.failed e, changes, h) => (next (.error e)).run settings changes { s with host := h }
    | (.aborted message, changes, h) => (.aborted message, changes, { s with host := h })
  | .hooks plans next, changes, s =>
    match hook plans changes s.host with
    | (r, changes, h) => (next r).run settings changes { s with host := h }
  | .inspect next, changes, s =>
    (next ⟨s.resolver.version, s.resolver.image, settings, changes.length⟩).run settings changes s
  | .report e next, changes, s =>
    next.run settings changes { s with host := s.host.report e }
  | .poke a bs next, changes, s =>
    next.run settings changes { s with host := s.host.poke a bs }

/-- Goes on after a success and passes a failure on. -/
def after (next : Program) : Except PatchError Unit → Program
  | .ok () => next
  | .error e => .fail e

/-- Goes on with the address of a target and passes a failure on. -/
def afterResolve (next : Address → Program) : Except ResolveError Address → Program
  | .ok a => next a
  | .error e => .fail (.resolve e)

end Program

end HotPatch
