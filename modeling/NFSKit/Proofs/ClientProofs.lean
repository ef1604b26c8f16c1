import NFSKit.EventLoop.Conditions
import NFSKit.EventLoop.Proofs.OutskirtsProofs

/-!
# The settings of a connected client

`setSecurity` refuses while libnfs has a descriptor, and `configurePerformance` never does. So the
settings that have to precede the connection stay what they are as long as nobody calls
`configurePerformance`, and `setSecurity` only while there is a descriptor: the calls of `nfs_set_*` that
are made govern other things.
-/

namespace NFSKit

open Machine

variable {s t : State}

/-! ## Setters -/

/-- A setter throws without a context, or when it sets the security mode of a connected context. -/
theorem configure_throws_iff (hctx : s.context.isSome) (x : Setting) :
    (∃ error, s.configure x = .error error) ↔ x.isSecurity ∧ 0 ≤ s.lib.fd := by
  obtain ⟨ctx, hc⟩ := Option.isSome_iff_exists.mp hctx
  unfold State.configure
  rw [hc]
  cases x with
  | security m =>
    dsimp only
    by_cases hfd : s.lib.fd < 0
    · rw [if_pos hfd]
      simp only [reduceCtorEq, exists_false, false_iff, not_and]
      intro _
      omega
    · rw [if_neg hfd]
      simp only [Except.error.injEq, exists_eq', true_iff]
      exact ⟨rfl, by omega⟩
  | _ => simp [Setting.isSecurity]

/-- A setter changes the settings and nothing else. -/
theorem configure_ok {x : Setting} (h : s.configure x = .ok t) :
    s.context.isSome ∧ t = { s with settings := x :: s.settings } := by
  unfold State.configure at h
  split at h
  · cases h
  · rename_i ctx hctx
    refine ⟨by simp [hctx], ?_⟩
    split at h
    · split at h
      · cases h
        rfl
      · cases h
    · cases h
      rfl

/-- `configurePerformance` never throws while there is a context. -/
theorem applySetters_ok {xs : List Setting} (hctx : s.context.isSome)
    (hxs : ∀ x ∈ xs, x.isSecurity = false) :
    (s.applySetters xs).2 = none ∧
      (s.applySetters xs).1.settings = xs.reverse ++ s.settings := by
  induction xs generalizing s with
  | nil => exact ⟨rfl, rfl⟩
  | cons x xs ih =>
    have hx := hxs x (List.mem_cons_self ..)
    unfold State.applySetters
    cases hconf : s.configure x with
    | error error =>
      have hthrows := (configure_throws_iff hctx x).mp ⟨error, hconf⟩
      rw [hx] at hthrows
      cases hthrows.1
    | ok u =>
      obtain ⟨-, rfl⟩ := configure_ok hconf
      obtain ⟨hnone, hsettings⟩ := @ih { s with settings := x :: s.settings } hctx
        fun y hy => hxs y (List.mem_cons_of_mem _ hy)
      exact ⟨hnone, by simpa using hsettings⟩

theorem setters_not_security (p : PerformanceSettings) : ∀ x ∈ p.setters, x.isSecurity = false := by
  intro x hx
  unfold PerformanceSettings.setters at hx
  simp only [List.mem_append, Option.mem_toList, Option.map_eq_some_iff] at hx
  rcases hx with (((⟨_, _, rfl⟩ | ⟨_, _, rfl⟩) | ⟨_, _, rfl⟩) | ⟨_, _, rfl⟩) | ⟨_, _, rfl⟩ <;> rfl

/-! ## Runs -/

/-- The calls of `nfs_set_*` made between two states, latest first: none governs a setting that has to
precede the connection. -/
structure State.SetsOthers (s t : State) (added : List Setting) : Prop where
  settings : t.settings = added ++ s.settings
  others : ∀ x ∈ added, x.precedesConnect = false

/-- One step that meets the condition sets nothing that precedes the connection. -/
theorem State.SetsOthers.step {u : State} {added : List Setting} {e : Event} (h : s.SetsOthers u added)
    (hspares : SparesSettings u e) (hstep : step u e = some t) : ∃ added', s.SetsOthers t added' := by
  rcases step_settings hstep with heq | ⟨x, rfl, hx⟩
  · exact ⟨added, heq.trans h.settings, h.others⟩
  · obtain ⟨hctx, rfl⟩ := configure_ok hx
    have hother : x.precedesConnect = false := by
      by_contra hpre
      obtain ⟨error, herror⟩ :=
        (configure_throws_iff hctx x).mpr (hspares x rfl (eq_true_of_ne_false hpre) hctx)
      rw [herror] at hx
      cases hx
    refine ⟨x :: added, congrArg (x :: ·) h.settings, ?_⟩
    intro y hy
    rcases List.mem_cons.mp hy with rfl | hy
    · exact hother
    · exact h.others y hy

/-- What libnfs holds for a setting is left alone by the calls that govern other ones. -/
theorem State.SetsOthers.held {added : List Setting} (h : s.SetsOthers t added) {α : Type}
    {held : List Setting → α}
    (hheld : ∀ x settings, x.precedesConnect = false → held (x :: settings) = held settings) :
    held t.settings = held s.settings := by
  have hothers := h.others
  rw [h.settings]
  clear h
  induction added with
  | nil => rfl
  | cons x added ih =>
    have hrest := ih fun y hy => hothers y (List.mem_cons_of_mem _ hy)
    exact (hheld x _ (hothers x (List.mem_cons_self ..))).trans hrest

/-- From any state on, in particular from a state in which `connect(export:)` has succeeded: as long as
nobody calls `configurePerformance`, and `setSecurity` only while libnfs has a descriptor, libnfs is told
nothing about the settings that have to precede the connection, so whatever it holds for them stays what
it is, and every call that would set one throws. In a state with a context, a call of `setSecurity`
throws exactly if there is a descriptor, and a call of `configurePerformance` never does. -/
theorem settings_frozen (h : Reaches step SparesSettings s t) :
    (∃ added, s.SetsOthers t added) ∧
      (∀ (α : Type) (held : List Setting → α),
        (∀ x settings, x.precedesConnect = false → held (x :: settings) = held settings) →
          held t.settings = held s.settings) ∧
      (∀ x, x.precedesConnect → t.context.isSome → SparesSettings t (.block (.configure x)) →
        ∃ error, t.configure x = .error error) ∧
      (t.context.isSome → ∀ m,
        (∃ error, t.configure (.security m) = .error error) ↔ 0 ≤ t.lib.fd) ∧
      (t.context.isSome → ∀ p, (t.configurePerformance p).2 = none ∧
        (t.configurePerformance p).1.settings = p.setters.reverse ++ t.settings) := by
  obtain ⟨added, hadded⟩ : ∃ added, s.SetsOthers t added := by
    refine h.invariant (I := fun u => ∃ added, s.SetsOthers u added) ⟨[], rfl, by simp⟩ ?_
    rintro u e v ⟨added, hadded⟩ hspares hstep
    exact hadded.step hspares hstep
  refine ⟨⟨added, hadded⟩, fun α held hheld => hadded.held hheld, ?_, ?_, ?_⟩
  · intro x hx hctx hspares
    exact (configure_throws_iff hctx x).mpr (hspares x rfl hx hctx)
  · intro hctx m
    rw [configure_throws_iff hctx]
    simp [Setting.isSecurity]
  · intro hctx p
    exact applySetters_ok hctx (setters_not_security p)

/-- The events of a `connect(export:)` that succeeds: the mount, the stat of the root directory, and the
user and group it belongs to. -/
def connectEvents (view : LibView) : List Event :=
  [.block .mount, .ret 0 view, .block .handleIOEvent, .callback 1 0 none, .ret 0 view,
    .block Block.stat, .ret 0 view, .block .handleIOEvent, .callback 2 0 (some (.pointer 7)),
    .ret 0 view, .block (.configure (.uid 501)), .block (.configure (.gid 20))]

/-- After connecting, a call of `setSecurity` while libnfs has a descriptor is refused, and the read size
stays what it is. -/
theorem settings_frozen_security :
    ∃ s t, run step (State.init 60000000000) (connectEvents { fd := 5, socketIno := 9 }) = some s ∧
      step s (.block (.configure (.security .kerberos5p))) = some t ∧
      storedReadMax t.settings = storedReadMax s.settings := by
  have hrun : ((run step (State.init 60000000000)
      (connectEvents { fd := 5, socketIno := 9 })).any fun s =>
      (step s (.block (.configure (.security .kerberos5p)))).isSome ∧
        SparesSettings s (.block (.configure (.security .kerberos5p)))) = true := by
    decide +kernel
  obtain ⟨s, hs, hfacts⟩ := (Option.any_eq_true _ _).mp hrun
  obtain ⟨hstep, hspares⟩ := of_decide_eq_true hfacts
  obtain ⟨t, ht⟩ := Option.isSome_iff_exists.mp hstep
  refine ⟨s, t, hs, ht, ?_⟩
  refine (settings_frozen (Reaches.refl.tail hspares ht)).2.1 Int storedReadMax ?_
  intro x settings hx
  cases x with
  | readMax => cases hx
  | _ => rfl

/-- After connecting, `configurePerformance` does not throw and changes the read size, and `setSecurity`
does not throw and reaches the connected context while libnfs has no socket. -/
theorem settings_change_connected :
    (∃ s, run step (State.init 60000000000) (connectEvents { fd := 5, socketIno := 9 }) = some s ∧
      s.outcomes 0 = [.success .void] ∧ s.outcomes 1 = [.success (.pointer 7)] ∧
      (s.configurePerformance { readMax := some 65536 }).2 = none ∧
      storedReadMax s.settings = 1048576 ∧
      storedReadMax (s.configurePerformance { readMax := some 65536 }).1.settings = 65536) ∧
    ∃ s, run step (State.init 60000000000)
        (connectEvents { fd := 5, socketIno := 9 } ++ [.block .handleIOEvent, .ret 0 {}]) = some s ∧
      s.outcomes 0 = [.success .void] ∧ s.outcomes 1 = [.success (.pointer 7)] ∧
      ∃ t, s.configure (.security .kerberos5p) = .ok t ∧
        t.settings = .security .kerberos5p :: s.settings := by
  have hperformance : ((run step (State.init 60000000000)
      (connectEvents { fd := 5, socketIno := 9 })).any fun s =>
      s.outcomes 0 = [.success .void] ∧ s.outcomes 1 = [.success (.pointer 7)] ∧
      (s.configurePerformance { readMax := some 65536 }).2 = none ∧
      storedReadMax s.settings = 1048576 ∧
      storedReadMax (s.configurePerformance { readMax := some 65536 }).1.settings = 65536) = true := by
    decide +kernel
  have hsecurity : ((run step (State.init 60000000000)
      (connectEvents { fd := 5, socketIno := 9 } ++ [.block .handleIOEvent, .ret 0 {}])).any fun s =>
      s.outcomes 0 = [.success .void] ∧ s.outcomes 1 = [.success (.pointer 7)] ∧
      s.context.isSome ∧ s.lib.fd < 0) = true := by
    decide +kernel
  obtain ⟨s, hs, hfacts⟩ := (Option.any_eq_true _ _).mp hperformance
  obtain ⟨u, hu, hfacts'⟩ := (Option.any_eq_true _ _).mp hsecurity
  obtain ⟨hmount, hstat, hctx, hfd⟩ := of_decide_eq_true hfacts'
  refine ⟨⟨s, hs, of_decide_eq_true hfacts⟩, u, hu, hmount, hstat, ?_⟩
  cases hsecure : u.configure (.security .kerberos5p) with
  | ok t =>
    obtain ⟨-, rfl⟩ := configure_ok hsecure
    exact ⟨_, rfl, rfl⟩
  | error error =>
    have hconnected := ((configure_throws_iff hctx _).mp ⟨error, hsecure⟩).2
    omega

end NFSKit
