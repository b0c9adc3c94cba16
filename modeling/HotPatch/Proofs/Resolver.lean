import HotPatch.Resolver
import HotPatch.Proofs.Host
import HotPatch.Proofs.Image

/-!
# What a target resolves to

A target that was found once stays where it was found. Otherwise memory as it is decides: the table
names the place or, where it is silent, the first match of the pattern leads there, and the bytes at
the place must be those that the target names.
-/

namespace HotPatch

/-! ## Where a target is in memory -/

namespace Target

variable {t : Target} {m : Memory} {v : Version} {a found : Nat}

def lastAddress? (v : Version) (ds : List Detail) : Option Address :=
  ds.reverse.findSome? fun
    | .address v' a => if v' = v then some a else none
    | _ => none

/-- A match at `found` leads to an address: to itself, or by the displacement inside it, counted
from the end of its instruction. -/
inductive Leads (t : Target) (m : Memory) (found : Nat) : Address → Prop
  | directly (h : t.relative = none) : Leads t m found found
  | through {place length : Nat} (h : t.relative = some (place, length))
      (accessible : m.Accessible (Address.wrap (found + place)) 4) :
      Leads t m found (Address.wrap
        (found + length + signed32 (ofLittleEndian (m.bytes (Address.wrap (found + place)) 4))))

/-- Where target `t` is to be looked for, `listed` being the address told for the running version:
there, or only if there is none, where the first match of the pattern leads. -/
inductive Candidate (t : Target) (listed : Option Address) (im : Image) (m : Memory) :
    Address → Prop
  | table {a : Address} (h : listed = some a) : Candidate t listed im m a
  | pattern {p : Pattern} {found a start stop : Nat} (unlisted : listed = none)
      (hp : t.pattern = some p) (window : t.window.getD (0, im.size) = (start, stop))
      (matched : im.Matches m p start stop found)
      (first : ∀ b, b < found → ¬ im.Matches m p start stop b) (leads : t.Leads m found a) :
      Candidate t listed im m (Address.wrap (a + t.offset))

def Carries (t : Target) (m : Memory) (a : Nat) : Prop :=
  ∀ bs, t.expected = some bs → m.Accessible a bs.length ∧ m.bytes a bs.length = bs

structure Located (t : Target) (listed : Option Address) (im : Image) (m : Memory) (x : Resolved) :
    Prop where
  candidate : t.Candidate listed im m x.address
  carries : t.Carries m x.address
  validated : x.validated = t.expected.isSome

/-! ## The table -/

theorem address?_putAddress (t : Target) (v w : Version) (a : Address) :
    (t.putAddress v a).address? w = if v = w then some a else t.address? w := by
  have hkept : (t.addresses.filter fun e ↦ e.1 ≠ v).find? (fun e ↦ e.1 == w) =
      if v = w then none else t.addresses.find? fun e ↦ e.1 == w := by
    split
    · rename_i heq
      simp [List.find?_eq_none, heq]
    · rename_i hne
      rw [List.find?_filter]
      congr 1
      funext e
      by_cases he : e.1 = w
      · simp [he, Ne.symm hne]
      · simp [he]
  rw [address?, putAddress, List.find?_append, hkept]
  by_cases h : v = w
  · simp [h]
  · simp [h, address?]

theorem lastAddress?_cons (v : Version) (d : Detail) (ds : List Detail) :
    lastAddress? v (d :: ds) =
      (lastAddress? v ds).or
        (match d with
          | .address v' a => if v' = v then some a else none
          | _ => none) := by
  rw [lastAddress?, List.reverse_cons, List.findSome?_append]
  cases d with
  | address v' a => by_cases h : v' = v <;> simp [lastAddress?, h]
  | _ => rfl

/-- The address that was told last counts. -/
theorem address?_foldl_tell (t : Target) (ds : List Detail) (v : Version) :
    (ds.foldl tell t).address? v = (lastAddress? v ds).or (t.address? v) := by
  induction ds generalizing t with
  | nil => rfl
  | cons d ds ih =>
      rw [List.foldl_cons, ih, lastAddress?_cons, Option.or_assoc]
      cases d with
      | address v' a =>
          rw [tell, address?_putAddress]
          by_cases h : v' = v <;> simp [h]
      | _ => rfl

/-- The table holds what was told last. -/
theorem address?_described (name : String) (ds : List Detail) (v : Version) :
    (described name ds).address? v = lastAddress? v ds := by
  rw [described, address?_foldl_tell]
  exact Option.or_none

theorem hasStrategy_of_address? (h : t.address? v = some a) : t.hasStrategy = true := by
  have hne : t.addresses ≠ [] := by
    intro hnil
    simp [address?, hnil] at h
  simp [hasStrategy, hne]

end Target

namespace Resolver

variable {r : Resolver} {t : Target} {m : Memory} {a found : Nat} {x : Resolved}

/-- A displacement is followed exactly if its four bytes can be read. -/
theorem follow_eq_ok_iff : follow t m found = .ok a ↔ t.Leads m found a := by
  cases hrel : t.relative with
  | none =>
      simp only [follow, hrel, Except.ok.injEq]
      constructor
      · rintro rfl
        exact .directly hrel
      · rintro (_ | h)
        · rfl
        · simp [hrel] at h
  | some d =>
      obtain ⟨place, length⟩ := d
      cases hread : m.readBytes (Address.wrap (found + place)) 4 with
      | error e =>
          simp only [follow, hrel, hread]
          refine iff_of_false nofun fun h ↦ ?_
          cases h with
          | directly h => simp [hrel] at h
          | through h accessible =>
              obtain ⟨rfl, rfl⟩ := Prod.mk.inj (Option.some.inj (hrel.symm.trans h))
              rw [Memory.readBytes_eq_ok_iff.mpr ⟨accessible, rfl⟩] at hread
              cases hread
      | ok raw =>
          obtain ⟨haccessible, rfl⟩ := Memory.readBytes_eq_ok_iff.mp hread
          simp only [follow, hrel, hread, Except.ok.injEq]
          constructor
          · rintro rfl
            exact .through hrel haccessible
          · intro h
            cases h with
            | directly h => simp [hrel] at h
            | through h accessible =>
                obtain ⟨rfl, rfl⟩ := Prod.mk.inj (Option.some.inj (hrel.symm.trans h))
                rfl

theorem scan_eq_ok_iff : r.scan t m = .ok a ↔ t.Candidate none r.image m a := by
  cases hp : t.pattern with
  | none =>
      simp only [scan, hp]
      refine iff_of_false nofun fun h ↦ ?_
      cases h with
      | table h => cases h
      | pattern _ hp' => simp [hp] at hp'
  | some p =>
      obtain ⟨start, stop, hwindow⟩ : ∃ start stop,
          t.window.getD (0, r.image.size) = (start, stop) := ⟨_, _, rfl⟩
      have hfirst := r.image.scanWithin_isFirst m p start stop
      constructor
      · intro h
        simp only [scan, hp, hwindow] at h
        split at h
        · cases h
        rename_i found hfound
        obtain ⟨hmatch, hlow⟩ := hfirst.eq_some_iff.mp hfound
        split at h
        · cases h
        rename_i a' hfollow
        cases h
        exact .pattern rfl hp hwindow hmatch hlow (follow_eq_ok_iff.mp hfollow)
      · intro h
        cases h with
        | table h => cases h
        | pattern _ hp' window matched first leads =>
            cases Option.some.inj (hp.symm.trans hp')
            obtain ⟨rfl, rfl⟩ := Prod.mk.inj (hwindow.symm.trans window)
            simp only [scan, hp, hwindow, hfirst.eq_some_iff.mpr ⟨matched, first⟩,
              follow_eq_ok_iff.mpr leads]

/-- The table decides where it has an address for the running version, and the pattern only where it
has none. -/
theorem candidate_eq_ok_iff :
    r.candidate t m = .ok a ↔ t.Candidate (t.address? r.version) r.image m a := by
  cases haddress : t.address? r.version with
  | some b =>
      simp only [candidate, Target.hasStrategy_of_address? haddress, if_true, haddress,
        Except.ok.injEq]
      constructor
      · rintro rfl
        exact .table rfl
      · intro h
        cases h with
        | table h => exact Option.some.inj h
        | pattern unlisted => cases unlisted
  | none =>
      rw [← scan_eq_ok_iff, candidate]
      split
      · rw [haddress]
      · rename_i hstrategy
        have hp : t.pattern = none := by
          cases hp : t.pattern with
          | none => rfl
          | some p => simp [Target.hasStrategy, hp] at hstrategy
        simp [scan, hp]

/-- A fingerprint, if there is one, has to be read and found equal. -/
theorem validate_eq_ok_iff :
    validate t m a = .ok x ↔
      x.address = a ∧ t.Carries m a ∧ x.validated = t.expected.isSome := by
  obtain ⟨b, validated⟩ := x
  cases hexpected : t.expected with
  | none => simp [validate, hexpected, Target.Carries, eq_comm]
  | some bs =>
      have hcarries : t.Carries m a ↔ m.readBytes a bs.length = .ok bs := by
        rw [Memory.readBytes_eq_ok_iff, Target.Carries, hexpected]
        constructor
        · intro h
          exact ⟨(h bs rfl).1, (h bs rfl).2.symm⟩
        · rintro ⟨haccessible, hbytes⟩ _ ⟨⟩
          exact ⟨haccessible, hbytes.symm⟩
      rw [hcarries]
      cases hread : m.readBytes a bs.length with
      | error e => simp [validate, hexpected, hread]
      | ok found =>
          by_cases h : found = bs
          · simp [validate, hexpected, hread, h, eq_comm]
          · simp [validate, hexpected, hread, h]

/-- What is found in memory as it is. -/
theorem locate_eq_ok_iff :
    r.locate t m = .ok x ↔ t.Located (t.address? r.version) r.image m x := by
  cases hcandidate : r.candidate t m with
  | error e =>
      simp only [locate, hcandidate]
      refine iff_of_false nofun fun h ↦ ?_
      rw [candidate_eq_ok_iff.mpr h.candidate] at hcandidate
      cases hcandidate
  | ok a =>
      simp only [locate, hcandidate, validate_eq_ok_iff]
      constructor
      · rintro ⟨rfl, hcarries, hvalidated⟩
        exact ⟨candidate_eq_ok_iff.mp hcandidate, hcarries, hvalidated⟩
      · intro h
        have hsame := candidate_eq_ok_iff.mpr h.candidate
        rw [hcandidate] at hsame
        cases hsame
        exact ⟨rfl, h.carries, h.validated⟩

/-! ## Calls one after the other -/

/-- The answers to calls, each made in a host of its own, and the resolver after them. -/
def resolveEach (r : Resolver) :
    List (Target × Host) → List (Except ResolveError Resolved) × Resolver
  | [] => ([], r)
  | (t, h) :: calls =>
    match r.resolve t h with
    | (answer, r, _) =>
      match r.resolveEach calls with
      | (answers, r) => (answer :: answers, r)

def firstSuccess? (t : Target) (calls : List (Target × Host))
    (answers : List (Except ResolveError Resolved)) : Option Resolved :=
  (calls.zip answers).findSome? fun c ↦ if c.1.1 = t then c.2.toOption else none

variable {h : Host} {calls : List (Target × Host)} {u : Target} {v : Version} {im : Image}

/-- A call is answered from what is remembered, or it finds a place and remembers it, or it fails
and leaves the resolver alone. -/
theorem resolve_cases (r : Resolver) (t : Target) (h : Host) :
    (∃ y, r.cached t = some y ∧ (r.resolve t h).1 = .ok y ∧ (r.resolve t h).2.1 = r) ∨
      r.cached t = none ∧
        ((∃ y, r.locate t h.memory = .ok y ∧ (r.resolve t h).1 = .ok y ∧
            (r.resolve t h).2.1 = { r with cache := (t, y) :: r.cache }) ∨
          ∃ e, r.locate t h.memory = .error e ∧ (r.resolve t h).1 = .error e ∧
            (r.resolve t h).2.1 = r) := by
  unfold resolve
  cases hcached : r.cached t with
  | some y => exact .inl ⟨y, rfl, rfl, rfl⟩
  | none =>
      cases hlocate : r.locate t h.memory with
      | ok y => exact .inr ⟨rfl, .inl ⟨y, rfl, rfl, rfl⟩⟩
      | error e => cases e <;> exact .inr ⟨rfl, .inr ⟨_, rfl, rfl, rfl⟩⟩

theorem memory_resolve (r : Resolver) (t : Target) (h : Host) :
    (r.resolve t h).2.2.memory = h.memory := by
  unfold resolve
  split
  · rfl
  · split <;> rfl

theorem cached_cons (r : Resolver) (u t : Target) (y : Resolved) :
    cached { r with cache := (u, y) :: r.cache } t = if u = t then some y else r.cached t := by
  by_cases hut : u = t <;> simp [cached, hut]

/-- What is remembered after a call. -/
theorem cached_resolve (r : Resolver) (u t : Target) (h : Host) :
    (r.resolve u h).2.1.cached t =
      (r.cached t).or (if u = t then (r.resolve u h).1.toOption else none) := by
  by_cases hut : u = t
  · subst hut
    rcases r.resolve_cases u h with
      ⟨y, hcached, ho, hr⟩ | ⟨hcached, ⟨y, -, ho, hr⟩ | ⟨e, -, ho, hr⟩⟩
    · simp [ho, hr, hcached]
    · simp [ho, hr, hcached, cached_cons, Except.toOption]
    · simp [ho, hr, Except.toOption]
  · rcases r.resolve_cases u h with ⟨y, -, -, hr⟩ | ⟨-, ⟨y, -, -, hr⟩ | ⟨e, -, -, hr⟩⟩
    · simp [hr, hut]
    · simp [hr, hut, cached_cons]
    · simp [hr, hut]

theorem version_resolve (r : Resolver) (t : Target) (h : Host) :
    (r.resolve t h).2.1.version = r.version ∧ (r.resolve t h).2.1.image = r.image := by
  rcases r.resolve_cases t h with ⟨y, -, -, hr⟩ | ⟨-, ⟨y, -, -, hr⟩ | ⟨e, -, -, hr⟩⟩
  all_goals
    rw [hr]
    exact ⟨rfl, rfl⟩

/-- What is remembered after a run is the first success of each target in it. -/
theorem cached_resolveEach (r : Resolver) (calls : List (Target × Host)) (t : Target) :
    (r.resolveEach calls).2.cached t =
      (r.cached t).or (firstSuccess? t calls (r.resolveEach calls).1) := by
  induction calls generalizing r with
  | nil => simp [resolveEach, firstSuccess?]
  | cons c calls ih =>
      obtain ⟨u, h⟩ := c
      simp only [resolveEach, ih, cached_resolve, firstSuccess?, List.zip_cons_cons,
        List.findSome?_cons, Option.or_assoc]
      congr 1
      cases if u = t then (r.resolve u h).1.toOption else none <;> rfl

theorem version_resolveEach (r : Resolver) (calls : List (Target × Host)) :
    (r.resolveEach calls).2.version = r.version ∧ (r.resolveEach calls).2.image = r.image := by
  induction calls generalizing r with
  | nil => exact ⟨rfl, rfl⟩
  | cons c calls ih =>
      obtain ⟨hversion, himage⟩ := r.version_resolve c.1 c.2
      obtain ⟨hversion', himage'⟩ := ih (r.resolve c.1 c.2).2.1
      exact ⟨hversion'.trans hversion, himage'.trans himage⟩

/-- A place in the table that does not hold the fingerprint is an error, whatever the pattern. -/
theorem locate_of_not_carries (ha : t.address? r.version = some a) (h : ¬ t.Carries m a) :
    r.locate t m = .error (.unreadable t.name a) ∨
      ∃ expected found, r.locate t m = .error (.validation t.name a expected found) := by
  have hcandidate : r.candidate t m = .ok a := candidate_eq_ok_iff.mpr (.table ha)
  simp only [locate, hcandidate]
  cases hexpected : t.expected with
  | none => exact absurd (fun bs hbs ↦ nomatch hexpected.symm.trans hbs) h
  | some bs =>
      simp only [validate, hexpected]
      cases hread : m.readBytes a bs.length with
      | error e => exact .inl rfl
      | ok found =>
          obtain ⟨haccessible, hfound⟩ := Memory.readBytes_eq_ok_iff.mp hread
          have hne : found ≠ bs := by
            rintro rfl
            refine h fun cs hcs ↦ ?_
            cases Option.some.inj (hexpected.symm.trans hcs)
            exact ⟨haccessible, hfound.symm⟩
          exact .inr ⟨bs, found, by simp only [if_neg hne]⟩

/-- After any calls, each in a host of its own, a target resolves to the first place at which an
equal target was found, and only if there is none to where it is located in memory as it is. A place
in the table that does not hold the fingerprint is an error then, and a failure leaves the resolver
as it was. -/
theorem resolve_refines (v : Version) (im : Image) (before : List (Target × Host)) (name : String)
    (ds : List Target.Detail) (h : Host) :
    let t := Target.described name ds
    let listed := Target.lastAddress? v ds
    let run := (new v im).resolveEach before
    let past := firstSuccess? t before run.1
    let r := run.2.resolve t h
    (∀ x, r.1 = .ok x ↔ past = some x ∨ past = none ∧ t.Located listed im h.memory x) ∧
      (∀ a, listed = some a → past = none → ¬ t.Carries h.memory a →
        r.1 = .error (.unreadable t.name a) ∨
          ∃ expected found, r.1 = .error (.validation t.name a expected found)) ∧
      (∀ e, r.1 = .error e → r.2.1 = run.2) ∧ r.2.2.memory = h.memory := by
  intro t listed run past r
  obtain ⟨hversion, himage⟩ := (new v im).version_resolveEach before
  have hcached : run.2.cached t = past := cached_resolveEach (new v im) before t
  have hlisted : t.address? run.2.version = listed := by
    rw [hversion]
    exact Target.address?_described name ds v
  have hlocate : ∀ x, run.2.locate t h.memory = .ok x ↔ t.Located listed im h.memory x := by
    intro x
    rw [locate_eq_ok_iff, hlisted, himage]
    rfl
  rcases run.2.resolve_cases t h with
    ⟨y, hsome, ho, hr⟩ | ⟨hnone, ⟨y, hfound, ho, -⟩ | ⟨e, hfailed, ho, hr⟩⟩
  · rw [hcached] at hsome
    refine ⟨fun x ↦ ?_, fun a _ hnone ↦ ?_, fun _ _ ↦ hr, run.2.memory_resolve t h⟩
    · simp [r, ho, hsome]
    · cases hsome.symm.trans hnone
  · rw [hcached] at hnone
    refine ⟨fun x ↦ ?_, fun a ha _ hnot ↦ ?_, fun e he ↦ ?_, run.2.memory_resolve t h⟩
    · simp only [r, ho, hnone, ← hlocate, hfound, reduceCtorEq, true_and, false_or]
    · have hfailed := run.2.locate_of_not_carries (hlisted.trans ha) hnot
      simp [hfound] at hfailed
    · cases ho.symm.trans he
  · rw [hcached] at hnone
    refine ⟨fun x ↦ ?_, fun a ha _ hnot ↦ ?_, fun _ _ ↦ hr, run.2.memory_resolve t h⟩
    · simp only [r, ho, hnone, ← hlocate, hfailed, reduceCtorEq, true_and, false_or]
    · have hfailed' := run.2.locate_of_not_carries (hlisted.trans ha) hnot
      rw [hfailed] at hfailed'
      simpa only [r, ho] using hfailed'

/-- A target stays where it was found although its bytes have gone; another of the same name is not
found there, nor by its pattern, but fails at its own place. -/
theorem resolve_refines_renamed :
    let t := Target.described "spot" [.address .retail 16, .expected [1]]
    let u := Target.described "spot"
      [.address .retail 32, .pattern ⟨[.exact 1], by simp⟩, .expected [1]]
    let h : Host := Host.onePage.poke 16 [1]
    let r := ((new .retail ⟨0, pageSize⟩).resolveEach [(t, h)]).2
    (r.resolve t .onePage).1 = .ok ⟨16, true⟩ ∧
      ((r.resolve u h).1 = .error (.unreadable "spot" 32) ∨
        ∃ expected found, (r.resolve u h).1 = .error (.validation "spot" 32 expected found)) := by
  intro t u h r
  constructor
  · have hpast : firstSuccess? t [(t, h)] ((new .retail ⟨0, pageSize⟩).resolveEach [(t, h)]).1 =
        some ⟨16, true⟩ := by decide +kernel
    exact ((resolve_refines .retail ⟨0, pageSize⟩ [(t, h)] "spot" _ .onePage).1 _).mpr (.inl hpast)
  · have hpast : firstSuccess? u [(t, h)] ((new .retail ⟨0, pageSize⟩).resolveEach [(t, h)]).1 =
        none := by decide +kernel
    have hnot : ¬ u.Carries h.memory 32 := by
      intro hcarries
      have hbytes := (hcarries [1] rfl).2
      revert hbytes
      decide +kernel
    exact (resolve_refines .retail ⟨0, pageSize⟩ [(t, h)] "spot" _ h).2.1 32 rfl hpast hnot

end Resolver

end HotPatch
