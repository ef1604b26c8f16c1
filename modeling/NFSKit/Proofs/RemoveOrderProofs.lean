import NFSKit.Proofs.RemoveItemProofs

/-!
# Proofs: the order of a removal

What the server is asked, and what it answers, when a tree is removed. A removal that returns has gone
through the tree depth first: each directory is listed, the entries of the listing are removed in their
order, and then the directory itself. Any other removal is such a one that has stopped early, and it has
stopped at the first answer that is an error.
-/

namespace NFSKit

open Paths NFSEventLoop

/-- A call of the server with its answer. -/
inductive ServerCall where
  | stat (path : Text) (answer : Except POSIXErrorCode NfsStat64)
  | list (path : Text) (answer : Except POSIXErrorCode (List Nfsdirent))
  | unlink (path : Text) (answer : Except POSIXErrorCode Unit)
  | rmdir (path : Text) (answer : Except POSIXErrorCode Unit)

namespace ServerCall

variable {σ : Type}

/-- What was asked. -/
def request : ServerCall → RemoveCall
  | .stat path _ => .stat path
  | .list path _ => .list path
  | .unlink path _ => .unlink path
  | .rmdir path _ => .rmdir path

/-- The error, if there was one. -/
def error : ServerCall → Option POSIXErrorCode
  | .stat _ (.error e) => some e
  | .list _ (.error e) => some e
  | .unlink _ (.error e) => some e
  | .rmdir _ (.error e) => some e
  | _ => none

/-- The server gives this answer and is in the second state after it. -/
def Given (srv : Server σ) (s : σ) : ServerCall → σ → Prop
  | .stat path answer, s' => srv.stat s path = (answer, s')
  | .list path answer, s' => srv.list s path = (answer, s')
  | .unlink path answer, s' => srv.unlink s path = (answer, s')
  | .rmdir path answer, s' => srv.rmdir s path = (answer, s')

/-- The server is asked these things one after the other. -/
inductive Served (srv : Server σ) : σ → List ServerCall → σ → Prop where
  | nil (s : σ) : Served srv s [] s
  | cons {s s' s'' : σ} {c : ServerCall} {log : List ServerCall} (h : c.Given srv s s')
      (hlog : Served srv s' log s'') : Served srv s (c :: log) s''

theorem Served.append {srv : Server σ} {s s' s'' : σ} {log log' : List ServerCall}
    (h : Served srv s log s') (h' : Served srv s' log' s'') : Served srv s (log ++ log') s'' := by
  induction h with
  | nil => exact h'
  | cons hc _ ih => exact .cons hc (ih h')

theorem Served.single {srv : Server σ} {s s' : σ} {c : ServerCall} (h : c.Given srv s s') :
    Served srv s [c] s' := .cons h (.nil s')

end ServerCall

namespace RemoveCall

/-- It is a call of the server, not one of `removeItem` to itself. -/
def isRequest : RemoveCall → Bool
  | .removeItem .. => false
  | _ => true

end RemoveCall

namespace NFSClient

variable {σ : Type} {srv : Server σ} {s s' : RemoveState σ} {path : Text}
  {r : RemoveOutcome × RemoveState σ} {log log' : List ServerCall} {outcome : RemoveOutcome}

/-! ## What is asked -/

/-- From the one state to the other the server has been asked these things, and the calls tell so. -/
structure Asked (srv : Server σ) (s s' : RemoveState σ) (log : List ServerCall) : Prop where
  served : ServerCall.Served srv s.server log s'.server
  calls : s'.calls.filter RemoveCall.isRequest
    = s.calls.filter RemoveCall.isRequest ++ log.map ServerCall.request

theorem Asked.refl (srv : Server σ) (s : RemoveState σ) : Asked srv s s [] := ⟨.nil _, by simp⟩

theorem Asked.trans {s s' s'' : RemoveState σ} (h : Asked srv s s' log) (h' : Asked srv s' s'' log') :
    Asked srv s s'' (log ++ log') := by
  refine ⟨h.served.append h'.served, ?_⟩
  rw [h'.calls, h.calls, List.map_append, List.append_assoc]

/-- One call of the server. -/
theorem Asked.call {server : σ} {c : ServerCall} (h : c.Given srv s.server server) :
    Asked srv s ⟨server, s.calls ++ [c.request]⟩ [c] := by
  refine ⟨.single h, ?_⟩
  have hrequest : c.request.isRequest = true := by cases c <;> rfl
  simp [hrequest]

/-- A call of `removeItem` to itself asks the server nothing. -/
theorem Asked.recurse {p name q : Text}
    (h : Asked srv ⟨s.server, s.calls ++ [.removeItem p name q]⟩ s' log) : Asked srv s s' log :=
  ⟨h.served, by rw [h.calls]; simp [RemoveCall.isRequest]⟩

/-- None of the calls has failed. -/
def Flawless (log : List ServerCall) : Prop := ∀ c ∈ log, c.error = none

theorem Flawless.append (h : Flawless log) (h' : Flawless log') : Flawless (log ++ log') := by
  intro c hc
  rcases List.mem_append.mp hc with hc | hc
  · exact h c hc
  · exact h' c hc

theorem Flawless.cons {c : ServerCall} (h : c.error = none) (hlog : Flawless log) :
    Flawless (c :: log) := List.forall_mem_cons.mpr ⟨h, hlog⟩

theorem Flawless.nil : Flawless [] := List.forall_mem_nil _

theorem Flawless.of_append (h : Flawless (log ++ log')) : Flawless log := by
  intro c hc
  exact h c (List.mem_append_left _ hc)

/-- Something that is no directory. -/
def emptyFile : NfsStat64 := ⟨S_IFREG, 1, 0, 0, 0, 0, 0, 0, 0, 0, 0⟩

theorem emptyFile_kind : emptyFile.nfs_mode &&& S_IFMT ≠ S_IFDIR := by decide

/-! ## Removals that have come to their end -/

variable [Characters]

mutual

/-- Something has been removed by these calls. -/
inductive Cleared : Text → List ServerCall → Prop where
  /-- What is no directory is unlinked. -/
  | leaf {path : Text} {stat : NfsStat64} (h : stat.nfs_mode &&& S_IFMT ≠ S_IFDIR) :
      Cleared path [.stat path (.ok stat), .unlink path (.ok ())]
  /-- A directory goes after what it has listed. -/
  | directory {path : Text} {stat : NfsStat64} {ents : List Nfsdirent} {items : List Attributes}
      {log : List ServerCall} (h : stat.nfs_mode &&& S_IFMT = S_IFDIR)
      (hread : readdirAll path ents = some items) (hentries : EntriesCleared path items log) :
      Cleared path
        (.stat path (.ok stat) :: .list path (.ok ents) :: log ++ [.rmdir path (.ok ())])

/-- The entries of a directory have been removed by these calls, in the order of the listing. -/
inductive EntriesCleared : Text → List Attributes → List ServerCall → Prop where
  | nil (path : Text) : EntriesCleared path [] []
  /-- The entries that lead elsewhere stay. -/
  | skip {path : Text} {item : Attributes} {items : List Attributes} {log : List ServerCall}
      (h : ¬isRemovable item.nameKey = true) (hitems : EntriesCleared path items log) :
      EntriesCleared path (item :: items) log
  | cons {path : Text} {item : Attributes} {items : List Attributes} {log log' : List ServerCall}
      (h : isRemovable item.nameKey = true) (hitem : Cleared (append path item.nameKey) log)
      (hitems : EntriesCleared path items log') : EntriesCleared path (item :: items) (log ++ log')

end

mutual

/-- No call of a removal that has come to its end has failed. -/
theorem Cleared.flawless {path : Text} {log : List ServerCall} : Cleared path log → Flawless log
  | .leaf _ => .cons rfl (.cons rfl .nil)
  | .directory _ _ hentries =>
    .cons rfl (.cons rfl (hentries.flawless.append (.cons rfl .nil)))

theorem EntriesCleared.flawless {path : Text} {items : List Attributes} {log : List ServerCall} :
    EntriesCleared path items log → Flawless log
  | .nil _ => .nil
  | .skip _ hitems => hitems.flawless
  | .cons _ hitem hitems => hitem.flawless.append hitems.flawless

end

/-- Whatever is listed, there is a removal of it. -/
theorem Cleared.exists (path : Text) : ∃ log, Cleared path log :=
  ⟨_, .leaf emptyFile_kind⟩

theorem EntriesCleared.exists (path : Text) (items : List Attributes) :
    ∃ log, EntriesCleared path items log := by
  induction items with
  | nil => exact ⟨[], .nil path⟩
  | cons item items ih =>
    obtain ⟨log', hitems⟩ := ih
    by_cases hname : isRemovable item.nameKey = true
    · obtain ⟨log, hitem⟩ := Cleared.exists (append path item.nameKey)
      exact ⟨log ++ log', .cons hname hitem hitems⟩
    · exact ⟨log', .skip hname hitems⟩

/-! ## Removals that stop -/

/-- How the calls of a removal end, if `Complete` holds of those of one that comes to its end. -/
inductive Stopped (Complete : List ServerCall → Prop) : RemoveOutcome → List ServerCall → Prop where
  | returned {log : List ServerCall} (h : Complete log) : Stopped Complete .returned log
  /-- The last call is one that could have gone on, and has failed. -/
  | threw (before rest : List ServerCall) {c : ServerCall} (c' : ServerCall) {e : POSIXErrorCode}
      (herror : c.error = some e) (hrequest : c'.request = c.request)
      (h : Complete (before ++ c' :: rest)) : Stopped Complete (.threw e) (before ++ [c])
  /-- The last call has listed something that cannot be converted. -/
  | trapped (before rest : List ServerCall) {q : Text} {ents : List Nfsdirent} (ents' : List Nfsdirent)
      (hread : readdirAll q ents = none) (h : Complete (before ++ .list q (.ok ents') :: rest)) :
      Stopped Complete .trapped (before ++ [.list q (.ok ents)])
  /-- The levels are used up. -/
  | unfinished {log : List ServerCall} (rest : List ServerCall) (h : Complete (log ++ rest)) :
      Stopped Complete .unfinished log

/-- A part that stops before its end stops the whole, if the whole could have gone on after it. -/
theorem Stopped.within {Part Whole : List ServerCall → Prop} (before : List ServerCall)
    (h : Stopped Part outcome log) (hne : outcome ≠ .returned)
    (hwhole : ∀ log, Part log → ∃ rest, Whole (before ++ (log ++ rest))) :
    Stopped Whole outcome (before ++ log) := by
  cases h with
  | returned h => exact absurd rfl hne
  | @threw first rest c c' e herror hrequest h =>
    obtain ⟨rest', hrest⟩ := hwhole _ h
    rw [← List.append_assoc]
    exact .threw _ (rest ++ rest') c' herror hrequest (by simpa using hrest)
  | @trapped first rest q ents ents' hread h =>
    obtain ⟨rest', hrest⟩ := hwhole _ h
    rw [← List.append_assoc]
    exact .trapped _ (rest ++ rest') ents' hread (by simpa using hrest)
  | @unfinished _ rest h =>
    obtain ⟨rest', hrest⟩ := hwhole _ h
    exact .unfinished (rest ++ rest') (by simpa using hrest)

/-- What has been asked in a run, and how it has ended. -/
def Ends (srv : Server σ) (Complete : List ServerCall → Prop) (s : RemoveState σ)
    (r : RemoveOutcome × RemoveState σ) : Prop :=
  ∃ log, Asked srv s r.2 log ∧ Stopped Complete r.1 log

/-- A last call of the server. -/
theorem Ends.finish {Complete : List ServerCall → Prop} {c : Except POSIXErrorCode Unit → ServerCall}
    {q : RemoveCall} {answer : Except POSIXErrorCode Unit × σ} (hrequest : ∀ a, (c a).request = q)
    (herror : ∀ e, (c (.error e)).error = some e) (hgiven : (c answer.1).Given srv s.server answer.2)
    (h : Complete [c (.ok ())]) : Ends srv Complete s (finishRemoval answer (s.calls ++ [q])) := by
  obtain ⟨answer, server⟩ := answer
  have hasked : Asked srv s ⟨server, s.calls ++ [q]⟩ [c answer] := by
    rw [← hrequest answer]
    exact .call hgiven
  refine ⟨[c answer], ?_, ?_⟩
  · cases answer <;> exact hasked
  · cases answer with
    | error e =>
      exact .threw [] [] (c (.ok ())) (herror e) ((hrequest _).trans (hrequest _).symm) h
    | ok _ => exact .returned h

/-- What went before a run, put in front of it. -/
theorem Ends.after {Part Whole : List ServerCall → Prop} (hasked : Asked srv s s' log)
    (h : Ends srv Part s' r) (hwhole : ∀ log', Part log' → Whole (log ++ log')) :
    Ends srv Whole s r := by
  obtain ⟨log', hasked', hstop⟩ := h
  refine ⟨log ++ log', hasked.trans hasked', ?_⟩
  generalize r.1 = outcome at hstop
  by_cases hreturned : outcome = .returned
  · subst hreturned
    cases hstop with
    | returned h => exact .returned (hwhole _ h)
  · exact hstop.within _ hreturned fun l hl => ⟨[], by simpa using hwhole l hl⟩

section Ends

variable {remove : Text → RemoveState σ → RemoveOutcome × RemoveState σ}

theorem removeEntries_ends (hremove : ∀ path s, Ends srv (Cleared path) s (remove path s))
    (path : Text) (items : List Attributes) (s : RemoveState σ) :
    Ends srv (EntriesCleared path items) s (removeEntries remove path items s) := by
  induction items generalizing s with
  | nil => exact ⟨[], .refl srv s, .returned (.nil path)⟩
  | cons item items ih =>
    by_cases hname : isRemovable item.nameKey = true
    · rw [removeEntries_cons items hname]
      obtain ⟨log, hasked, hstop⟩ := hremove (append path item.nameKey)
        ⟨s.server, s.calls ++ [.removeItem path item.nameKey (append path item.nameKey)]⟩
      dsimp only
      generalize remove (append path item.nameKey) _ = r at hasked hstop ⊢
      by_cases hreturned : r.1 = .returned
      · rw [if_pos hreturned]
        rw [hreturned] at hstop
        cases hstop with
        | returned hitem =>
          exact (ih r.2).after hasked.recurse fun log' hitems => .cons hname hitem hitems
      · rw [if_neg hreturned]
        refine ⟨log, hasked.recurse, hstop.within [] hreturned ?_⟩
        intro log hitem
        obtain ⟨rest, hitems⟩ := EntriesCleared.exists path items
        have hitems : EntriesCleared path (item :: items) (log ++ rest) := .cons hname hitem hitems
        exact ⟨rest, hitems⟩
    · rw [removeEntries_skip items hname]
      exact (ih s).after (.refl srv s) fun log' hitems => .skip hname hitems

/-- The removal of a directory, after the call that has told that it is one. -/
theorem removeDirectoryRecursive_ends (hremove : ∀ path s, Ends srv (Cleared path) s (remove path s))
    (path : Text) (s : RemoveState σ) {stat : NfsStat64} (hdir : stat.nfs_mode &&& S_IFMT = S_IFDIR) :
    Ends srv (fun log => Cleared path (.stat path (.ok stat) :: log)) s
      (removeDirectoryRecursive srv remove path s) := by
  rcases hlist : srv.list s.server path with ⟨answer, server⟩
  have hasked : Asked srv s ⟨server, s.calls ++ [.list path]⟩ [.list path answer] :=
    .call (c := .list path answer) hlist
  simp only [removeDirectoryRecursive, hlist]
  cases answer with
  | error e =>
    refine ⟨_, hasked, .threw [] [.rmdir path (.ok ())] (.list path (.ok [])) rfl rfl ?_⟩
    exact .directory hdir rfl (.nil path)
  | ok ents =>
    dsimp only
    rcases hread : readdirAll path ents with _ | items
    · refine ⟨_, hasked, .trapped [] [.rmdir path (.ok ())] [] hread ?_⟩
      exact .directory hdir rfl (.nil path)
    · obtain ⟨log, hitems, hstop⟩ :=
        removeEntries_ends hremove path items ⟨server, s.calls ++ [.list path]⟩
      dsimp only
      generalize removeEntries remove path items _ = r at hitems hstop ⊢
      obtain ⟨outcome, s'⟩ := r
      have hbefore := hasked.trans hitems
      cases outcome with
      | returned =>
        cases hstop with
        | returned hentries =>
          have hrmdir : Ends srv (· = [.rmdir path (.ok ())]) s'
              (finishRemoval (srv.rmdir s'.server path) (s'.calls ++ [.rmdir path])) :=
            .finish (c := .rmdir path) (fun _ => rfl) (fun _ => rfl) rfl rfl
          refine hrmdir.after hbefore ?_
          rintro _ rfl
          exact .directory hdir hread hentries
      | threw e => exact ⟨_, hbefore, hstop.within _ (by simp) (fun l hentries =>
          ⟨[.rmdir path (.ok ())], .directory hdir hread hentries⟩)⟩
      | trapped => exact ⟨_, hbefore, hstop.within _ (by simp) (fun l hentries =>
          ⟨[.rmdir path (.ok ())], .directory hdir hread hentries⟩)⟩
      | unfinished => exact ⟨_, hbefore, hstop.within _ (by simp) (fun l hentries =>
          ⟨[.rmdir path (.ok ())], .directory hdir hread hentries⟩)⟩

theorem removeItem_ends (srv : Server σ) (levels : Nat) (path : Text) (s : RemoveState σ) :
    Ends srv (Cleared path) s (removeItem srv levels path s) := by
  induction levels generalizing path s with
  | zero =>
    obtain ⟨rest, hrest⟩ := Cleared.exists path
    exact ⟨[], .refl srv s, .unfinished rest hrest⟩
  | succ levels ih =>
    rcases hstat : srv.stat s.server path with ⟨answer, server⟩
    have hasked : Asked srv s ⟨server, s.calls ++ [.stat path]⟩ [.stat path answer] :=
      .call (c := .stat path answer) hstat
    simp only [removeItem, hstat]
    cases answer with
    | error e =>
      refine ⟨_, hasked, .threw [] [.unlink path (.ok ())] (.stat path (.ok emptyFile)) rfl rfl ?_⟩
      exact .leaf emptyFile_kind
    | ok stat =>
      dsimp only
      by_cases hdir : stat.nfs_mode &&& S_IFMT = S_IFDIR
      · rw [if_pos hdir]
        exact (removeDirectoryRecursive_ends ih path _ hdir).after hasked fun log' h => h
      · rw [if_neg hdir]
        have hunlink : Ends srv (· = [.unlink path (.ok ())]) ⟨server, s.calls ++ [.stat path]⟩
            (finishRemoval (srv.unlink server path) (s.calls ++ [.stat path] ++ [.unlink path])) :=
          .finish (c := .unlink path) (fun _ => rfl) (fun _ => rfl) rfl rfl
        refine hunlink.after hasked ?_
        rintro _ rfl
        exact .leaf hdir

end Ends

/-! ## The first failure -/

/-- A removal that throws has seen one error, in its last call. -/
theorem Stopped.failed {e : POSIXErrorCode} (h : Stopped (Cleared path) (.threw e) log) :
    ∃ before c, log = before ++ [c] ∧ c.error = some e ∧ Flawless before := by
  cases h with
  | @threw before rest c c' _ herror hrequest h =>
    exact ⟨before, c, rfl, herror, h.flawless.of_append⟩

/-- A removal that does not throw has seen no error. -/
theorem Stopped.flawless (h : Stopped (Cleared path) outcome log) (hne : ∀ e, outcome ≠ .threw e) :
    Flawless log := by
  cases h with
  | returned h => exact h.flawless
  | @threw _ _ _ _ e _ _ _ => exact absurd rfl (hne e)
  | trapped _ _ _ hread h => exact h.flawless.of_append.append (.cons rfl .nil)
  | unfinished _ h => exact h.flawless.of_append

/-- What a removal has asked the server in its calls, and how it has ended. -/
structure DepthFirst (srv : Server σ) (server : σ) (path : Text) (r : RemoveOutcome × RemoveState σ)
    (log : List ServerCall) : Prop where
  served : ServerCall.Served srv server log r.2.server
  calls : r.2.calls.filter RemoveCall.isRequest = log.map ServerCall.request
  /-- It has removed everything that was listed, or it is the beginning of such a removal. -/
  ordered : Stopped (Cleared path) r.1 log
  /-- It has gone no further than the first error, and this is what it throws. -/
  failed : ∀ e, r.1 = .threw e →
    ∃ before c, log = before ++ [c] ∧ c.error = some e ∧ Flawless before
  flawless : (∀ e, r.1 ≠ .threw e) → Flawless log

/-- Whatever the server answers, `removeItem` removes depth first and stops at the first error. -/
theorem removal_depth_first (srv : Server σ) (levels : Nat) (path : Text) (server : σ) :
    ∃ log, DepthFirst srv server path (removeItem srv levels path ⟨server, []⟩) log := by
  obtain ⟨log, hasked, hstop⟩ := removeItem_ends srv levels path ⟨server, []⟩
  refine ⟨log, hasked.served, by simpa using hasked.calls, hstop, ?_, hstop.flawless⟩
  intro e hthrew
  rw [hthrew] at hstop
  exact hstop.failed

end NFSClient

end NFSKit
