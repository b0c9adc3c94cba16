import HotPatch.Proofs.Resolver
import HotPatch.Proofs.Transaction.Basic

/-!
# Near branches are followed back

A near branch keeps its destination as a displacement of 32 bits in two's complement. Wherever the
displacement fits, reading it and adding it to the end of the branch leads to the destination, which
is what resolving a target through the branch does.
-/

namespace HotPatch

theorem wrap_natCast {a : Nat} (h : a < addressLimit) : Address.wrap a = a := by
  rw [Address.wrap, Int.emod_eq_of_lt (Int.natCast_nonneg a) (Int.ofNat_lt.mpr h),
    Int.toNat_natCast]

/-! ## The displacement -/

namespace Code

variable {opcode : UInt8} {a d len : Nat} {i : Int} {code : List UInt8}

theorem signed32_littleEndianInt (h : Reaches i) :
    signed32 (ofLittleEndian (littleEndianInt 4 i)) = i := by
  have hpow : Nat.pow 256 4 = 0x100000000 := by decide
  obtain ⟨hlow, hhigh⟩ := h
  rw [littleEndianInt, ofLittleEndian_littleEndian, hpow, signed32]
  split <;> omega

theorem near?_isSome_iff :
    (near? opcode a d).isSome = true ↔ Reaches ((d : Int) - (a + 5)) := by
  by_cases h : Reaches ((d : Int) - (a + 5)) <;> simp [near?, displacement?, nearLength, h]

-- both ends of the range
example :
    callNear? 0 0x80000004 = some [0xE8, 0xFF, 0xFF, 0xFF, 0x7F] ∧ callNear? 0 0x80000005 = none ∧
      jumpNear? 0x80000000 5 = some [0xE9, 0, 0, 0, 0x80] ∧ jumpNear? 0x80000000 4 = none := by
  decide

theorem near?_eq_some (h : near? opcode a d = some code) :
    Reaches ((d : Int) - (a + 5)) ∧ code = opcode :: littleEndianInt 4 ((d : Int) - (a + 5)) := by
  have hreaches := near?_isSome_iff.mp (Option.isSome_of_mem h)
  refine ⟨hreaches, ?_⟩
  simpa [near?, displacement?, nearLength, hreaches, eq_comm] using h

theorem length_near? (h : near? opcode a d = some code) : code.length = 5 := by
  rw [(near?_eq_some h).2, List.length_cons, littleEndianInt, length_littleEndian]

/-- The displacement behind the opcode leads from the end of the branch to its destination. -/
theorem wrap_near? {m : Memory} (h : near? opcode a d = some (m.bytes a 5))
    (hd : d < addressLimit) :
    Address.wrap ((a : Int) + 5 + signed32 (ofLittleEndian (m.bytes (a + 1) 4))) = d := by
  obtain ⟨hreaches, hcode⟩ := near?_eq_some h
  rw [Memory.bytes_succ] at hcode
  have hsum : (a : Int) + 5 + ((d : Int) - (a + 5)) = d := by omega
  rw [(List.cons.inj hcode).2, signed32_littleEndianInt hreaches, hsum, wrap_natCast hd]

end Code

namespace Transaction

open Code

variable {t : Transaction} {h : Host} {opcode : UInt8} {a d : Nat}

/-- A near branch is written exactly if it reaches its destination and its place can be written to,
and then it stands there. -/
theorem writeNear_near? (t : Transaction) (h : Host) (opcode : UInt8) (a d : Nat) :
    let o := t.writeNear (near? opcode a d) a d h
    (o.1 = .ok () ↔ Reaches ((d : Int) - (a + 5)) ∧ h.memory.Admits a 5) ∧
      (o.1 = .ok () → near? opcode a d = some (o.2.2.memory.bytes a 5) ∧
        ∀ x, a ≤ x → x < a + 5 → o.2.2.memory.Readable x) := by
  intro o
  cases hcode : near? opcode a d with
  | none =>
      have hfar : ¬ Reaches ((d : Int) - (a + 5)) := by
        rw [← @near?_isSome_iff opcode, hcode]
        simp
      have herror : o.1 = .error (.outOfRange a d) := by simp only [o, hcode, writeNear]
      rw [herror]
      exact ⟨iff_of_false nofun fun hok ↦ hfar hok.1, nofun⟩
  | some code =>
      have hlength := length_near? hcode
      have hreaches := (near?_eq_some hcode).1
      have ho : o = t.write a code h := by simp only [o, hcode, writeNear]
      by_cases hadmits : h.memory.Admits a code.length
      · obtain ⟨-, message, hwrite⟩ := t.write_eq_ok code hadmits
        rw [ho, hwrite]
        refine ⟨iff_of_true rfl ⟨hreaches, hlength ▸ hadmits⟩, fun _ ↦ ⟨?_, ?_⟩⟩
        · rw [← hlength]
          exact congrArg some (Memory.bytes_store h.memory a code).symm
        · rw [← hlength]
          exact hadmits.readable
      · rcases t.write_cases a code h with ⟨e, hwrite⟩ | ⟨r, hfit, rfl, rfl, -⟩
        · rw [ho, hwrite]
          exact ⟨iff_of_false nofun fun hok ↦ hadmits (hlength.symm ▸ hok.2), nofun⟩
        · exact absurd (r.length_eq ▸ hfit.admits) hadmits

end Transaction

namespace Resolver

variable {r : Resolver} {u : Target} {m : Memory} {opcode : UInt8} {a d : Nat}

/-- The place of `u` is not remembered and not in the table: its pattern is first met at `a`, and
from there a displacement is followed as a near branch holds it, with nothing added and no
fingerprint to compare. -/
structure FollowsBranch (r : Resolver) (u : Target) (m : Memory) (a : Address) : Prop where
  unknown : r.cached u = none
  unlisted : u.address? r.version = none
  first : ∃ p start stop, u.pattern = some p ∧ u.window.getD (0, r.image.size) = (start, stop) ∧
    r.image.Matches m p start stop a ∧ ∀ b, b < a → ¬ r.image.Matches m p start stop b
  relative : u.relative = some (1, 5)
  offset : u.offset = 0
  expected : u.expected = none

/-- A target that follows the branch written at `a` is found where the branch goes. -/
theorem locate_near? (h : Code.near? opcode a d = some (m.bytes a 5)) (ha : a + 5 < addressLimit)
    (hd : d < addressLimit) (hread : ∀ x, a ≤ x → x < a + 5 → m.Readable x)
    (hu : r.FollowsBranch u m a) : r.locate u m = .ok ⟨d, false⟩ := by
  obtain ⟨p, start, stop, hp, hwindow, hmatch, hfirst⟩ := hu.first
  have hplace : Address.wrap (a + (1 : Nat)) = a + 1 := wrap_natCast (a := a + 1) (by omega)
  have haccessible : m.Accessible (Address.wrap (a + (1 : Nat))) 4 := by
    rw [hplace]
    refine ⟨fun _ ↦ by omega, fun x h₁ h₂ ↦ hread x (by omega) (by omega)⟩
  have hleads : u.Leads m a d := by
    have hthrough := Target.Leads.through hu.relative haccessible
    rwa [hplace, Int.cast_ofNat_Int, Code.wrap_near? h hd] at hthrough
  have hcandidate : u.Candidate (u.address? r.version) r.image m d := by
    have hpattern := Target.Candidate.pattern hu.unlisted hp hwindow hmatch hfirst hleads
    rwa [hu.offset, Int.add_zero, wrap_natCast hd] at hpattern
  refine locate_eq_ok_iff.mpr ⟨hcandidate, fun bs hbs ↦ ?_, ?_⟩
  · cases hu.expected.symm.trans hbs
  · rw [hu.expected]
    rfl

theorem resolve_of_locate {h : Host} {x : Resolved} (hunknown : r.cached u = none)
    (hlocate : r.locate u h.memory = .ok x) : (r.resolve u h).1 = .ok x := by
  rw [resolve, hunknown]
  simp only [hlocate]

/-- `o` is what becomes of writing a near branch at `a` in `h`: it is written if it reaches `d` and
its place can be read and written to. As long as its bytes stay there and can be read, whatever else
has changed, a target that follows it is found at `d`. -/
structure FollowedBack (h : Host) (a d : Nat) (o : Except MemoryError Unit × Transaction × Host) :
    Prop where
  ok_iff : o.1 = .ok () ↔
    (-0x80000000 ≤ (d : Int) - (a + 5) ∧ (d : Int) - (a + 5) < 0x80000000) ∧ h.memory.Admits a 5
  readable : o.1 = .ok () → ∀ x, a ≤ x → x < a + 5 → o.2.2.memory.Readable x
  resolved : o.1 = .ok () → ∀ (k : Host) (r : Resolver) (u : Target),
    k.memory.bytes a 5 = o.2.2.memory.bytes a 5 →
    (∀ x, a ≤ x → x < a + 5 → k.memory.Readable x) →
    r.FollowsBranch u k.memory a → (r.resolve u k).1 = .ok ⟨d, false⟩

theorem followedBack_writeNear (ha : a + 5 < addressLimit) (hd : d < addressLimit) (t : Transaction)
    (h : Host) : FollowedBack h a d (t.writeNear (Code.near? opcode a d) a d h) := by
  obtain ⟨hiff, hplace⟩ := t.writeNear_near? h opcode a d
  refine ⟨hiff, fun hok ↦ (hplace hok).2, fun hok k r u hbytes hread hu ↦ ?_⟩
  have hcode : Code.near? opcode a d = some (k.memory.bytes a 5) := hbytes ▸ (hplace hok).1
  exact resolve_of_locate hu.unknown (locate_near? hcode ha hd hread hu)

/-- A near call or jump can be encoded exactly if the distance from its end to its destination fits
in 32 bits with a sign, and once it is written a target is resolved through it to its
destination. -/
theorem resolve_near (a d : Nat) (ha : a + 5 < addressLimit) (hd : d < addressLimit) :
    ((Code.callNear? a d).isSome = true ↔
        -0x80000000 ≤ (d : Int) - (a + 5) ∧ (d : Int) - (a + 5) < 0x80000000) ∧
      ((Code.jumpNear? a d).isSome = true ↔
        -0x80000000 ≤ (d : Int) - (a + 5) ∧ (d : Int) - (a + 5) < 0x80000000) ∧
        ∀ (t : Transaction) (h : Host), FollowedBack h a d (t.perform (.call a d) h) ∧
          FollowedBack h a d (t.perform (.jump a d) h) :=
  ⟨Code.near?_isSome_iff, Code.near?_isSome_iff, fun t h ↦
    ⟨followedBack_writeNear ha hd t h, followedBack_writeNear ha hd t h⟩⟩

/-- A call backwards, which is found by its opcode alone. -/
theorem resolve_near_backward :
    let o := Transaction.empty.perform (.call 16 3) .onePage
    let r : Resolver := .new .retail ⟨0, pageSize⟩
    let u := Target.described "callee" [.pattern ⟨[.exact 0xE8], by simp⟩, .relative 1 5]
    16 + 5 < addressLimit ∧ 3 < addressLimit ∧ o.1 = .ok () ∧ r.FollowsBranch u o.2.2.memory 16 ∧
      (r.resolve u o.2.2).1 = .ok ⟨3, false⟩ := by
  intro o r u
  have hback := ((resolve_near 16 3 (by decide) (by decide)).2.2 .empty .onePage).1
  have hok : o.1 = .ok () := rfl
  have hread := hback.readable hok
  have hopcode : ∀ b, b ≤ 16 → (o.2.2.memory.byte b = 0xE8 ↔ b = 16) := by decide +kernel
  have hmatch : r.image.Matches o.2.2.memory ⟨[.exact 0xE8], by simp⟩ 0 pageSize 16 := by
    refine ⟨by decide, by decide, by decide, fun x h₁ h₂ ↦ ?_, (Pattern.suits_iff _).mpr ?_⟩
    · exact hread x h₁ (Nat.lt_of_lt_of_le h₂ (by decide))
    · intro i b hi
      cases i with
      | zero =>
          cases hi
          exact (hopcode 16 (Nat.le_refl 16)).mpr rfl
      | succ i => cases hi
  have hfollows : r.FollowsBranch u o.2.2.memory 16 := by
    refine ⟨rfl, rfl, ⟨_, 0, pageSize, rfl, rfl, hmatch, fun b hb hearlier ↦ ?_⟩, rfl, rfl, rfl⟩
    have hbyte := (Pattern.suits_iff _).mp hearlier.suits 0 0xE8 rfl
    exact Nat.ne_of_lt hb ((hopcode b (Nat.le_of_lt hb)).mp hbyte)
  exact ⟨by decide, by decide, hok, hfollows, hback.resolved hok _ r u rfl hread hfollows⟩

end Resolver

end HotPatch
