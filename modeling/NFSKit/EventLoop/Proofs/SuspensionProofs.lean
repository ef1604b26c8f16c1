import NFSKit.EventLoop.Proofs.SourcesProofs
import Mathlib.Data.List.Perm.Basic

/-!
# The suspended flags of the write sources

Dispatch counts how often a source has been suspended; the loop keeps a flag instead. Each of the three
functions keeps the flag right, for the main connection and for the export query, although they start
from different flags. So no source is resumed that is not suspended, and every source that was ever made
is either held or has been resumed and cancelled before it was dropped.
-/

namespace NFSKit

namespace DispatchSource

variable {src src' ws : DispatchSource} {held held' dropped : List DispatchSource} {made : Nat}
  {flag : Bool}

theorem suspended_eq (h : src.suspensions = if flag then 1 else 0) : src.suspended = flag := by
  unfold suspended
  rw [h]
  cases flag <;> rfl

/-- A source that is suspended once is active after a resume, on which Dispatch does not trap. -/
theorem resume_of_suspended (h : src.suspensions = 1) :
    src.resume.suspensions = 0 ∧ src.resume.overResumed = src.overResumed := by
  unfold resume suspended
  rw [h]
  exact ⟨rfl, by simp⟩

namespace SourcesAccounted

theorem nil : SourcesAccounted [] [] 0 where
  every := List.Perm.refl []
  resumed := by simp
  dropped := by simp

theorem perm (h : SourcesAccounted held dropped made) (hperm : held'.Perm held) :
    SourcesAccounted held' dropped made where
  every := ((hperm.append_right dropped).map serial).trans h.every
  resumed := by
    intro src hsrc
    exact h.resumed src ((hperm.append_right dropped).mem_iff.mp hsrc)
  dropped := h.dropped

/-- A source is made. -/
theorem make (h : SourcesAccounted held dropped made) (hserial : src.serial = made)
    (hresumed : src.overResumed = false) : SourcesAccounted (src :: held) dropped (made + 1) where
  every := by
    rw [List.range_succ, List.cons_append, List.map_cons, hserial]
    exact (h.every.cons made).trans (List.perm_append_singleton _ _).symm
  resumed := by
    intro x hx
    rcases List.mem_cons.mp hx with rfl | hx
    · exact hresumed
    · exact h.resumed x hx
  dropped := h.dropped

/-- A source that is held changes. -/
theorem touch (h : SourcesAccounted (src :: held) dropped made) (hserial : src'.serial = src.serial)
    (hresumed : src'.overResumed = false) : SourcesAccounted (src' :: held) dropped made where
  every := by
    have hevery := h.every
    rw [List.cons_append, List.map_cons] at hevery ⊢
    rwa [hserial]
  resumed := by
    intro x hx
    rcases List.mem_cons.mp hx with rfl | hx
    · exact hresumed
    · exact h.resumed x (List.mem_cons_of_mem _ hx)
  dropped := h.dropped

/-- A source that is active and cancelled is dropped. -/
theorem drop (h : SourcesAccounted (src :: held) dropped made) (hactive : src.suspended = false)
    (hcancelled : src.cancelled = true) : SourcesAccounted held (src :: dropped) made where
  every := (List.perm_middle.map serial).trans h.every
  resumed := by
    intro x hx
    exact h.resumed x (List.perm_middle.mem_iff.mp hx)
  dropped := by
    intro x hx
    rcases List.mem_cons.mp hx with rfl | hx
    · exact ⟨hactive, hcancelled⟩
    · exact h.dropped x hx

/-- What `cancelSources` does with a read source. -/
theorem dropRead (h : SourcesAccounted (src :: held) dropped made) (hcount : src.suspensions = 0) :
    SourcesAccounted held (src.cancel :: dropped) made := by
  have hresumed : src.cancel.overResumed = false := h.resumed src (List.mem_cons_self ..)
  have hactive : src.cancel.suspended = false := suspended_eq hcount
  have htouched : SourcesAccounted (src.cancel :: held) dropped made := h.touch rfl hresumed
  exact htouched.drop hactive rfl

/-- What the flag makes `cancelSources` do with a write source. -/
theorem dropWrite (h : SourcesAccounted (ws :: held) dropped made)
    (hcount : ws.suspensions = if flag then 1 else 0) :
    SourcesAccounted held ((if flag then ws.resume else ws).cancel :: dropped) made := by
  have hresumed : ws.overResumed = false := h.resumed ws (List.mem_cons_self ..)
  cases flag with
  | false => exact h.dropRead hcount
  | true =>
    obtain ⟨hactive, hover⟩ := resume_of_suspended hcount
    have htouched : SourcesAccounted (ws.resume :: held) dropped made := h.touch rfl (hover.trans hresumed)
    exact htouched.dropRead hactive

end SourcesAccounted

end DispatchSource

open DispatchSource

namespace Sources

variable {s : Sources}

/-- Without sources nothing is claimed of the flag. -/
theorem flagRight_of_off (hoff : s.Off) (haccounted : SourcesAccounted s.held s.dropped s.made) :
    s.FlagRight := by
  refine ⟨?_, ?_, haccounted⟩
  · intro ws hws
    rw [hoff.2] at hws
    cases hws
  · intro rs hrs
    rw [hoff.1] at hrs
    cases hrs

/-- The sources that are dropped have been resumed and cancelled. -/
theorem FlagRight.cancelSources_accounted (h : s.FlagRight) :
    SourcesAccounted [] s.cancelSources.dropped s.cancelSources.made := by
  obtain ⟨hwrite, hread, haccounted⟩ := h
  obtain ⟨readSource, writeSource, fd, ino, timer, flag, made, dropped⟩ := s
  unfold Sources.cancelSources
  cases readSource with
  | none =>
    cases writeSource with
    | none => exact haccounted
    | some ws =>
      have hdropped := SourcesAccounted.dropWrite haccounted (hwrite ws rfl).1
      cases flag <;> exact hdropped
  | some rs =>
    have hrest := SourcesAccounted.dropRead haccounted (hread rs rfl).1
    cases writeSource with
    | none => exact hrest
    | some ws =>
      have hdropped := SourcesAccounted.dropWrite hrest (hwrite ws rfl).1
      cases flag <;> exact hdropped

theorem FlagRight.cancelSources (h : s.FlagRight) : s.cancelSources.FlagRight := by
  have hoff := cancelSources_off s
  refine flagRight_of_off hoff ?_
  unfold held
  rw [hoff.1, hoff.2]
  exact h.cancelSources_accounted

/-- The sources of a setup are held, those of the one before have been dropped in good order. -/
theorem FlagRight.setupSources_accounted (h : s.FlagRight) (timeout : Int) (view : LibView) :
    SourcesAccounted (s.setupSources timeout view).held (s.setupSources timeout view).dropped
      (s.setupSources timeout view).made := by
  have hcancelled := h.cancelSources_accounted
  obtain ⟨hread, hwrite⟩ := cancelSources_off s
  unfold Sources.setupSources startTimeoutTimer setReadSource setWriteSource held
  generalize s.cancelSources = x at hcancelled hread hwrite
  obtain ⟨readSource, writeSource, fd, ino, timer, flag, made, dropped⟩ := x
  subst hread hwrite
  refine SourcesAccounted.perm ?_ (List.Perm.swap _ _ [])
  dsimp only
  split
  · exact (hcancelled.make rfl rfl).make rfl rfl
  · exact (hcancelled.make rfl rfl).make rfl rfl

/-- The new write source stays suspended, and the flag is set. -/
theorem FlagRight.setupSources (h : s.FlagRight) (timeout : Int) (view : LibView) :
    (s.setupSources timeout view).FlagRight := by
  refine ⟨?_, ?_, h.setupSources_accounted timeout view⟩
  · rintro ws ⟨⟩
    exact ⟨rfl, rfl⟩
  · rintro rs ⟨⟩
    exact ⟨rfl, rfl⟩

/-- The current write source changes. -/
theorem SourcesAccounted.touchWrite {ws ws' : DispatchSource} (h : SourcesAccounted s.held s.dropped s.made)
    (hws : s.writeSource = some ws) (hserial : ws'.serial = ws.serial)
    (hresumed : ws'.overResumed = ws.overResumed) :
    SourcesAccounted (s.readSource.toList ++ [ws']) s.dropped s.made := by
  have hheld : s.held = s.readSource.toList ++ [ws] := by
    unfold held
    rw [hws]
    rfl
  rw [hheld] at h
  have hfirst := h.perm (List.perm_append_singleton _ _).symm
  have hover := hfirst.resumed ws (List.mem_cons_self ..)
  exact (hfirst.touch hserial (hresumed.trans hover)).perm (List.perm_append_singleton _ _)

/-- A toggle moves the flag and the count together. -/
theorem FlagRight.updateWriteSource (h : s.FlagRight) (pollout : Bool) :
    (s.updateWriteSource pollout).FlagRight := by
  unfold Sources.updateWriteSource
  cases hw : s.writeSource with
  | none => exact h
  | some ws =>
    obtain ⟨hcount, hcancelled⟩ := h.write ws hw
    cases pollout with
    | true =>
      cases hflag : s.writeSourceSuspended with
      | true =>
        rw [hflag] at hcount
        obtain ⟨hactive, hover⟩ := resume_of_suspended hcount
        have haccounted : SourcesAccounted (s.readSource.toList ++ [ws.resume]) s.dropped s.made :=
          SourcesAccounted.touchWrite h.accounted hw rfl hover
        refine ⟨?_, h.read, haccounted⟩
        rintro _ ⟨⟩
        exact ⟨hactive, hcancelled⟩
      | false => exact h
    | false =>
      cases hflag : s.writeSourceSuspended with
      | true => exact h
      | false =>
        rw [hflag] at hcount
        have haccounted : SourcesAccounted (s.readSource.toList ++ [ws.suspend]) s.dropped s.made :=
          SourcesAccounted.touchWrite h.accounted hw rfl rfl
        refine ⟨?_, h.read, haccounted⟩
        rintro _ ⟨⟩
        exact ⟨congrArg (· + 1) hcount, hcancelled⟩

theorem FlagRight.apply (h : s.FlagRight) (call : Call) : (s.apply call).FlagRight := by
  cases call with
  | setupSources timeout view => exact h.setupSources timeout view
  | cancelSources => exact h.cancelSources
  | updateWriteSource pollout => exact h.updateWriteSource pollout

theorem FlagRight.run (h : s.FlagRight) (calls : List Call) : (s.run calls).FlagRight := by
  induction calls generalizing s with
  | nil => exact h
  | cons call calls ih => exact ih (h.apply call)

end Sources

namespace RpcExports

variable {s : RpcExports}

theorem cancelRpcExportsSources_off (s : RpcExports) : s.cancelRpcExportsSources.Off := by
  unfold cancelRpcExportsSources Off
  obtain ⟨ctx, readSource, writeSource, flag, done, contID, made, dropped⟩ := s
  cases readSource <;> cases writeSource <;> cases flag <;> exact ⟨rfl, rfl⟩

theorem flagRight_of_off (hoff : s.Off) (haccounted : SourcesAccounted s.held s.dropped s.made) :
    s.FlagRight := by
  refine ⟨?_, ?_, haccounted⟩
  · intro ws hws
    rw [hoff.2] at hws
    cases hws
  · intro rs hrs
    rw [hoff.1] at hrs
    cases hrs

theorem FlagRight.cancelRpcExportsSources_accounted (h : s.FlagRight) :
    SourcesAccounted [] s.cancelRpcExportsSources.dropped s.cancelRpcExportsSources.made := by
  obtain ⟨hwrite, hread, haccounted⟩ := h
  obtain ⟨ctx, readSource, writeSource, flag, done, contID, made, dropped⟩ := s
  unfold RpcExports.cancelRpcExportsSources
  cases readSource with
  | none =>
    cases writeSource with
    | none => exact haccounted
    | some ws =>
      have hdropped := SourcesAccounted.dropWrite haccounted (hwrite ws rfl).1
      cases flag <;> exact hdropped
  | some rs =>
    have hrest := SourcesAccounted.dropRead haccounted (hread rs rfl).1
    cases writeSource with
    | none => exact hrest
    | some ws =>
      have hdropped := SourcesAccounted.dropWrite hrest (hwrite ws rfl).1
      cases flag <;> exact hdropped

theorem FlagRight.cancelRpcExportsSources (h : s.FlagRight) :
    s.cancelRpcExportsSources.FlagRight := by
  have hoff := cancelRpcExportsSources_off s
  refine flagRight_of_off hoff ?_
  unfold held
  rw [hoff.1, hoff.2]
  exact h.cancelRpcExportsSources_accounted

theorem FlagRight.setupRpcExportsSources_accounted (h : s.FlagRight) (fd : Int) :
    SourcesAccounted (s.setupRpcExportsSources fd).held (s.setupRpcExportsSources fd).dropped
      (s.setupRpcExportsSources fd).made := by
  have hcancelled := h.cancelRpcExportsSources_accounted
  obtain ⟨hread, hwrite⟩ := cancelRpcExportsSources_off s
  unfold RpcExports.setupRpcExportsSources setReadSource setWriteSource held
  generalize s.cancelRpcExportsSources = x at hcancelled hread hwrite
  obtain ⟨ctx, readSource, writeSource, flag, done, contID, made, dropped⟩ := x
  subst hread hwrite
  exact ((hcancelled.make rfl rfl).make rfl rfl).perm (List.Perm.swap _ _ [])

/-- The new write source is resumed at once, and the flag is cleared. -/
theorem FlagRight.setupRpcExportsSources (h : s.FlagRight) (fd : Int) :
    (s.setupRpcExportsSources fd).FlagRight := by
  refine ⟨?_, ?_, h.setupRpcExportsSources_accounted fd⟩
  · rintro ws ⟨⟩
    exact ⟨rfl, rfl⟩
  · rintro rs ⟨⟩
    exact ⟨rfl, rfl⟩

theorem SourcesAccounted.touchWrite {ws ws' : DispatchSource} (h : SourcesAccounted s.held s.dropped s.made)
    (hws : s.rpcExportsWriteSource = some ws) (hserial : ws'.serial = ws.serial)
    (hresumed : ws'.overResumed = ws.overResumed) :
    SourcesAccounted (s.rpcExportsReadSource.toList ++ [ws']) s.dropped s.made := by
  have hheld : s.held = s.rpcExportsReadSource.toList ++ [ws] := by
    unfold held
    rw [hws]
    rfl
  rw [hheld] at h
  have hfirst := h.perm (List.perm_append_singleton _ _).symm
  have hover := hfirst.resumed ws (List.mem_cons_self ..)
  exact (hfirst.touch hserial (hresumed.trans hover)).perm (List.perm_append_singleton _ _)

theorem FlagRight.updateRpcExportsWriteSource (h : s.FlagRight) (pollout : Bool) :
    (s.updateRpcExportsWriteSource pollout).FlagRight := by
  unfold RpcExports.updateRpcExportsWriteSource
  cases hctx : s.rpcExportsCtx with
  | none => exact h
  | some ctx =>
    cases hw : s.rpcExportsWriteSource with
    | none => exact h
    | some ws =>
      obtain ⟨hcount, hcancelled⟩ := h.write ws hw
      cases pollout with
      | true =>
        cases hflag : s.rpcExportsWriteSuspended with
        | true =>
          rw [hflag] at hcount
          obtain ⟨hactive, hover⟩ := resume_of_suspended hcount
          have haccounted :
              SourcesAccounted (s.rpcExportsReadSource.toList ++ [ws.resume]) s.dropped s.made :=
            SourcesAccounted.touchWrite h.accounted hw rfl hover
          refine ⟨?_, h.read, haccounted⟩
          rintro _ ⟨⟩
          exact ⟨hactive, hcancelled⟩
        | false => exact h
      | false =>
        cases hflag : s.rpcExportsWriteSuspended with
        | true => exact h
        | false =>
          rw [hflag] at hcount
          have haccounted :
              SourcesAccounted (s.rpcExportsReadSource.toList ++ [ws.suspend]) s.dropped s.made :=
            SourcesAccounted.touchWrite h.accounted hw rfl rfl
          refine ⟨?_, h.read, haccounted⟩
          rintro _ ⟨⟩
          exact ⟨congrArg (· + 1) hcount, hcancelled⟩

theorem FlagRight.apply (h : s.FlagRight) (call : Call) : (s.apply call).FlagRight := by
  cases call with
  | setupRpcExportsSources fd => exact h.setupRpcExportsSources fd
  | cancelRpcExportsSources => exact h.cancelRpcExportsSources
  | updateRpcExportsWriteSource ctx pollout =>
    have hctx : ({ s with rpcExportsCtx := ctx } : RpcExports).FlagRight :=
      ⟨h.write, h.read, h.accounted⟩
    exact hctx.updateRpcExportsWriteSource pollout

theorem FlagRight.run (h : s.FlagRight) (calls : List Call) : (s.run calls).FlagRight := by
  induction calls generalizing s with
  | nil => exact h
  | cons call calls ih => exact ih (h.apply call)

end RpcExports

/-- After every sequence of calls, for the main connection and for the export query: the flag is the
suspension of the current write source, which Dispatch has counted once at most; every source ever made
is held or dropped, and was never resumed while not suspended; every dropped one had been resumed and
cancelled; and a cancel leaves none behind. -/
theorem suspended_flags_right (calls : List Sources.Call) (rpcCalls : List RpcExports.Call) :
    let s := ({} : Sources).run calls
    let r := ({} : RpcExports).run rpcCalls
    ((∀ ws, s.writeSource = some ws → ws.suspended = s.writeSourceSuspended ∧ ws.suspensions ≤ 1) ∧
      SourcesAccounted s.held s.dropped s.made ∧ s.cancelSources.Off) ∧
    (∀ ws, r.rpcExportsWriteSource = some ws →
        ws.suspended = r.rpcExportsWriteSuspended ∧ ws.suspensions ≤ 1) ∧
      SourcesAccounted r.held r.dropped r.made ∧ r.cancelRpcExportsSources.Off := by
  intro s r
  have hs : s.FlagRight := (Sources.flagRight_of_off (s := {}) ⟨rfl, rfl⟩ .nil).run calls
  have hr : r.FlagRight := (RpcExports.flagRight_of_off (s := {}) ⟨rfl, rfl⟩ .nil).run rpcCalls
  refine ⟨⟨?_, hs.accounted, s.cancelSources_off⟩, ?_, hr.accounted, r.cancelRpcExportsSources_off⟩
  · intro ws hws
    have hcount := (hs.write ws hws).1
    refine ⟨suspended_eq hcount, ?_⟩
    rw [hcount]
    split <;> omega
  · intro ws hws
    have hcount := (hr.write ws hws).1
    refine ⟨suspended_eq hcount, ?_⟩
    rw [hcount]
    split <;> omega

end NFSKit
