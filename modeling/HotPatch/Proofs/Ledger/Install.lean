import HotPatch.Proofs.Ledger.Body
import HotPatch.Proofs.Ledger.Patch
import HotPatch.Proofs.Patch.Keeping

/-!
# What a failed install still holds

Whatever the host writes while a patch is installed, a failed install accounts for every byte that
the engine wrote: it was undone, or the patch holds the record that undoes it. Edits are the only
exception. What an edit leaves of a transaction that could not be rolled back is held by nobody.
-/

namespace HotPatch

open Host

variable {x : Address} {v : UInt8} {total d : Int}

def Host.pokes (h : Host) : List (Address × List UInt8) → Host
  | [] => h
  | (a, bs) :: ws => (h.poke a bs).pokes ws

theorem Host.InBalance.pokes {h : Host} (hb : InBalance x v true total d h)
    (ws : List (Address × List UInt8)) : InBalance x v true total d (h.pokes ws) := by
  induction ws generalizing h with
  | nil => exact hb
  | cons w ws ih => exact ih (hb.poke w.1 w.2)

namespace Patch

variable {p p₁ : Patch} {s s₁ : Site}

def edits (p : Patch) (s : Site) : List (Edit × Host) :=
  match p.attempted? s with
  | some (p, s) => (p.body.install p.installs).edits p.settings [] s
  | none => []

/-- With nothing left over from before, the edits are those of the body. -/
theorem edits_of_cleared {p : Patch} {s : Site} (hdisabled : p.enabled = false)
    (hcleared : p.clearLeftovers s = (.ok (), p, s))
    (hversion : p.metadata.versions.contains s.resolver.version = true) :
    p.edits s = (p.body.install p.installs).edits p.settings [] s := by
  have hattempted : p.attempted? s = some (p, s) := by
    rw [attempted?, if_neg (by simp [hdisabled]), hcleared]
    exact if_pos hversion
  rw [edits, hattempted]

/-- An install keeps the balance, but for what its edits leave astray. -/
theorem install_settled (hp : ∀ c ∈ p.changes, c.Sound true)
    (hb : InBalance x v true total (d + p.owed x v) s.host) :
    Settled x v true total (d + debts x v (Edit.strays (p.edits s))) p (p.install s).2.1
      (p.install s).2.2 := by
  unfold edits
  cases ha : p.attempted? s with
  | none => exact install_of_not_attempted ha hp (hb.congr (by simp))
  | some ps =>
      obtain ⟨p₁, s₁⟩ := ps
      obtain ⟨hattempt, hcleared⟩ := install_of_attempted ha
      obtain ⟨r, p₂, s₂, heq, hsettled, hempty⟩ := clearLeftovers_settled hp hb
      cases hcleared.symm.trans heq
      have hnone := hempty rfl
      have hsettings : InBalance x v true total (d + Setting.owed x v p₁.settings) s₁.host :=
        hsettled.balance.congr (by simp [owed, hnone])
      obtain ⟨o, cs, s₂, hrun, hcs, hb₂⟩ :=
        (p₁.body.install p₁.installs).run_balanced p₁.settings [] s₁ hsettings
      rw [List.nil_append] at hrun
      have hframe : InBalance x v true total (d +
          debts x v (Edit.strays ((p₁.body.install p₁.installs).edits p₁.settings [] s₁)) +
          Setting.owed x v p₁.settings + Change.owed x v cs) s₂.host := hb₂.congr (by omega)
      have hdone := attempt_settled hnone hrun hcs hframe
      rw [hattempt]
      exact ⟨hdone.body.trans hsettled.body, hdone.changes, hdone.balance⟩

theorem owed_of_not_stranded (hfailed : (p.install s).1 = false)
    (hstranded : (p.install s).2.1.isStranded = false)
    (hsettings : Setting.Unwritten (p.install s).2.1.settings) :
    (p.install s).2.1.owed x v = 0 := by
  have hchanges : (p.install s).2.1.changes = [] := by
    rw [isStranded, install_enabled, hfailed] at hstranded
    simpa using hstranded
  rw [owed, hchanges, Setting.owed_of_unwritten hsettings]
  rfl

theorem owed_of_uninstalled (hp : ∀ c ∈ p.changes, c.Sound true)
    (hb : InBalance x v true total (d + p.owed x v) s.host) (hstranded : p.isStranded = true)
    (hdone : (p.uninstall s).1 = true) : (p.uninstall s).2.1.owed x v = 0 := by
  unfold Patch.uninstall at hdone ⊢
  obtain ⟨r, p₁, s₁, heq, -, hover⟩ := undo_settled hp hb
  have hheld : ¬ (!p.enabled && p.changes.isEmpty) = true := by
    unfold isStranded at hstranded
    cases hempty : p.changes.isEmpty <;> simp_all
  rw [if_neg hheld, heq] at hdone ⊢
  cases r with
  | error e => cases hdone
  | ok u =>
      obtain ⟨hchanges, hsettings⟩ := hover rfl
      simp only [owed, hchanges, Setting.owed_of_unwritten hsettings]
      rfl

/-- Whatever a body does and whatever the host writes in between, a byte is accounted for when an
install is over: by what the host wrote itself, by the records that the changes and settings of the
patch hold, and by what edits left astray. Edits leave nothing astray if each is orderly and kept,
so then a failed install that does not leave the patch stranded or a setting in memory has undone
all that the engine wrote there. An orderly edit that is not kept leaves all astray that it wrote.
The account stays when the patch is uninstalled later, which takes back all that a stranded patch
holds unless it fails again. -/
theorem install_accounted (p : Patch) (hp : ∀ c ∈ p.changes, c.Sound true) (s : Site)
    (hs : s.host.pool.Sound) (x : Address) (hmapped : s.host.memory.Mapped x)
    (hout : ¬ s.host.pool.Covers x) :
    let p' := (p.install s).2.1
    let s' := (p.install s).2.2
    let es := p.edits s
    p'.enabled = (p.install s).1 ∧ (∀ c ∈ p'.changes, c.Sound true) ∧
      ∀ v,
        s'.host.tally x v true + p'.owed x v + debts x v (Edit.strays es) =
            s.host.tally x v true + p.owed x v ∧
          ((∀ q ∈ es, q.1.Orderly .empty q.2 ∧ q.1.Kept q.2) →
            debts x v (Edit.strays es) = 0 ∧
              ((p.install s).1 = false → p'.isStranded = false → Setting.Unwritten p'.settings →
                s'.host.tally x v true = s.host.tally x v true + p.owed x v)) ∧
          (∀ q ∈ es, q.1.Orderly .empty q.2 → ¬ q.1.Kept q.2 →
            debts x v (q.1.stray q.2) = debts x v (q.1.run .empty q.2).2.1.records) ∧
          ∀ ws : List (Address × List UInt8),
            let u := p'.uninstall { s' with host := s'.host.pokes ws }
            u.2.2.host.tally x v true + u.2.1.owed x v + debts x v (Edit.strays es) =
                s.host.tally x v true + p.owed x v ∧
              (p'.isStranded = true → u.1 = true → u.2.1.owed x v = 0) := by
  intro p' s' es
  have hsettled (v : UInt8) : Settled x v true (s.host.tally x v true + p.owed x v)
      (0 + debts x v (Edit.strays es)) p p' s' :=
    install_settled hp ⟨hmapped, hout, hs, by omega⟩
  refine ⟨install_enabled p s, (hsettled 0).changes, fun v ↦ ?_⟩
  have hbooks : s'.host.tally x v true + p'.owed x v + debts x v (Edit.strays es) =
      s.host.tally x v true + p.owed x v := by
    have hbalance := (hsettled v).balance.balance
    omega
  refine ⟨hbooks, fun hes ↦ ?_, fun q _ horderly ↦ horderly.debts_stray.2, fun ws ↦ ?_⟩
  · have hnone : debts x v (Edit.strays es) = 0 := Edit.debts_strays hes
    refine ⟨hnone, fun hfailed hstranded hsettings ↦ ?_⟩
    have howed : p'.owed x v = 0 := owed_of_not_stranded hfailed hstranded hsettings
    omega
  · intro u
    have hb : InBalance x v true (s.host.tally x v true + p.owed x v)
        (0 + debts x v (Edit.strays es) + p'.owed x v)
        ({ s' with host := s'.host.pokes ws } : Site).host := (hsettled v).balance.pokes ws
    refine ⟨?_, owed_of_uninstalled (hsettled v).changes hb⟩
    have hbalance : u.2.2.host.tally x v true +
        (0 + debts x v (Edit.strays es) + u.2.1.owed x v) = s.host.tally x v true + p.owed x v :=
      (uninstall_settled (hsettled v).changes hb).balance.balance
    omega

/-- The host writes over a recorded change, so the change stays; once the host has put the byte
back, all is undone. -/
theorem install_accounted_stranded :
    let s : Site := ⟨.new .unknown ⟨0, 0⟩, .onePage⟩
    let e : Edit := .write (.bytes 0 [170, 170]) (Edit.after .done)
    let p : Patch := .ofBody (.named "A") (.ofProgram [] (.transaction e
      (Program.after (.poke 0 [204] (.fail (.other "x"))))))
    let p' := (p.install s).2.1
    let u := p'.uninstall
      { (p.install s).2.2 with host := (p.install s).2.2.host.pokes [(0, [170])] }
    (p.install s).1 = false ∧ p'.isStranded = true ∧ p'.owed 1 0 = 1 ∧ u.1 = true ∧
      u.2.1.owed 1 0 = 0 := by
  intro s e p p' u
  have hmapped : s.host.memory.Mapped 1 := by decide
  obtain ⟨-, -, hbyte⟩ := install_accounted p nofun s Trampoline.Pool.sound_empty 1 hmapped
    (Trampoline.Pool.not_covers_empty 1)
  obtain ⟨htotal, hkept, -, hlater⟩ := hbyte 0
  have hbooks : (p.install s).2.2.host.tally 1 0 true + p'.owed 1 0 +
      debts 1 0 (Edit.strays (p.edits s)) = s.host.tally 1 0 true + p.owed 1 0 := htotal
  have hstranded : p'.isStranded = true := by decide
  have hdone : u.1 = true := by decide
  have hes : ∀ q ∈ p.edits s, q.1.Orderly .empty q.2 ∧ q.1.Kept q.2 := by
    have hsingle : p.edits s = [(e, s.host)] := by
      rw [edits_of_cleared rfl rfl (by decide)]
      change Program.edits [] (.transaction e _) [] s = _
      rw [Program.edits]
      split <;> rfl
    rw [hsingle]
    exact List.forall_mem_singleton.mpr ⟨Edit.orderly_single .., Edit.kept_single ..⟩
  have hstray : debts 1 0 (Edit.strays (p.edits s)) = 0 := (hkept hes).1
  have hstart : s.host.tally 1 0 true = 1 := by decide
  have hover : (p.install s).2.2.host.tally 1 0 true = 0 := by decide
  have hnothing : p.owed 1 0 = 0 := by decide
  have howed : p'.owed 1 0 = 1 := by omega
  exact ⟨by decide, hstranded, howed, hdone, (hlater [(0, [170])]).2 hstranded hdone⟩

/-- The host writes over a part of what an open transaction wrote. The other part stays when the
edit fails, although the patch is not stranded and counts as uninstalled. -/
theorem install_loses_write :
    let s : Site := ⟨.new .unknown ⟨0, 0⟩, .onePage⟩
    let e : Edit := .write (.bytes 0 [170, 170])
      (Edit.after (.poke 0 [204] (.fail (.other "x"))))
    let p : Patch := .ofBody (.named "A") (.ofProgram [] (.transaction e (Program.after .done)))
    let p' := (p.install s).2.1
    let s' := (p.install s).2.2
    (p.install s).1 = false ∧ p'.isStranded = false ∧ (p'.uninstall s').1 = true ∧
      s'.host.ownWrites = [⟨0, [170], [204], rfl⟩] ∧ s.host.memory.byte 1 = 0 ∧
        (p'.uninstall s').2.2.host.memory.byte 1 = 170 := by
  intro s e p p' s'
  exact ⟨by decide, by decide, by decide, by decide, by decide, by decide⟩

end Patch

end HotPatch
