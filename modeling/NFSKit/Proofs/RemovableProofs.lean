import NFSKit.Proofs.RemoteTreeProofs

/-!
# Proofs: what has to hold for a remote tree to be removed

The converse. A run that leaves nothing of the subtree has removed each entry at its turn: a link that
leads to a directory is not unlinked by any call, and a link that leads nowhere is an error. So each
link led to something else when its turn came. An entry whose name is no text is not removed by any call
either, and a directory whose path has a NUL is found again below itself.
-/

namespace NFSKit.RemoteTree

open Paths Utf8 NFSEventLoop NFSClient FileTree

variable {t u : RemoteTree} {p q : Location} {n : List UInt8} {path : Text} {hops levels : Nat}
  {k : NodeKind (List UInt8)} {s s' : Remote} {calls : List RemoveCall}

/-! ## What a run leaves -/

/-- The tree only loses entries. -/
theorem answer_sub {α : Type} {reply : Except POSIXErrorCode α × RemoteTree}
    (h : Sub reply.2.toFileTree s.tree.toFileTree) :
    Sub (s.answer reply).2.tree.toFileTree s.tree.toFileTree := by
  obtain ⟨faults, -, ⟨-, e, heq⟩ | heq⟩ := answer_cases s reply
  · rw [heq]
    exact Sub.refl _
  · rw [heq]
    exact h

theorem unlink_cases (t : RemoteTree) (hops : Nat) (path : Text) :
    (∃ e, t.unlink hops path = (.error e, t)) ∨
      ∃ q, t.resolve false hops (locationOf path) = some q ∧ t.kindAt q ≠ some .directory ∧
        t.unlink hops path = (.ok (), t.erase q) := by
  unfold RemoteTree.unlink
  cases hres : t.resolve false hops (locationOf path) with
  | none => exact .inl ⟨_, rfl⟩
  | some q =>
    by_cases hdir : t.kindAt q = some .directory
    · exact .inl ⟨_, if_pos hdir⟩
    · exact .inr ⟨q, rfl, hdir, if_neg hdir⟩

theorem rmdir_cases (t : RemoteTree) (hops : Nat) (path : Text) :
    (∃ e, t.rmdir hops path = (.error e, t)) ∨
      ∃ q, t.resolve false hops (locationOf path) = some q ∧ t.kindAt q = some .directory ∧
        t.names q = [] ∧ t.rmdir hops path = (.ok (), t.erase q) := by
  unfold RemoteTree.rmdir
  cases hres : t.resolve false hops (locationOf path) with
  | none => exact .inl ⟨_, rfl⟩
  | some q =>
    by_cases hroot : q = []
    · exact .inl ⟨_, if_pos hroot⟩
    by_cases hdir : t.kindAt q = some .directory
    · by_cases hempty : t.names q = []
      · exact .inr ⟨q, rfl, hdir, hempty, by simp [hroot, hdir, hempty]⟩
      · exact .inl ⟨.ENOTEMPTY, by simp [hroot, hdir, hempty]⟩
    · exact .inl ⟨.ENOTDIR, by simp [hroot, hdir]⟩

theorem unlink_sub (t : RemoteTree) (hops : Nat) (path : Text) :
    Sub (t.unlink hops path).2.toFileTree t.toFileTree := by
  obtain ⟨e, heq⟩ | ⟨q, -, -, heq⟩ := unlink_cases t hops path
  · rw [heq]
    exact Sub.refl _
  · rw [heq]
    exact sub_erase _ _

theorem rmdir_sub (t : RemoteTree) (hops : Nat) (path : Text) :
    Sub (t.rmdir hops path).2.toFileTree t.toFileTree := by
  obtain ⟨e, heq⟩ | ⟨q, -, -, -, heq⟩ := rmdir_cases t hops path
  · rw [heq]
    exact Sub.refl _
  · rw [heq]
    exact sub_erase _ _

/-- What is erased is neither the entry nor above it. -/
theorem kindAt_erase_other (h : ¬ p <+: q) : (t.erase p).kindAt q = t.kindAt q :=
  (FileTree.kindAt_erase t.toFileTree p q).trans (if_neg fun hpre => h hpre.2)

/-- A server that has the link still, after an answer that leaves it. -/
theorem answer_kindAt {α : Type} {reply : Except POSIXErrorCode α × RemoteTree}
    (hhere : s.tree.kindAt q = some k) (hreply : reply.2.kindAt q = some k) :
    (s.answer reply).2.tree.kindAt q = some k := by
  obtain ⟨faults, -, ⟨-, e, heq⟩ | heq⟩ := answer_cases s reply
  · rw [heq]
    exact hhere
  · rw [heq]
    exact hreply

/-- A directory is removed only if it is empty. -/
theorem rmdir_child (hsub : Sub u.toFileTree t.toFileTree)
    (hres : t.resolve false hops (locationOf path) = some p) (hk : u.kindAt (p ++ [n]) = some k) :
    (u.rmdir hops path).2.kindAt (p ++ [n]) = some k := by
  obtain ⟨e, hrmdir⟩ | ⟨q, hq, -, hempty, hrmdir⟩ := rmdir_cases u hops path
  · rwa [hrmdir]
  · obtain rfl := resolve_unique hsub (Sub.refl _) hq hres
    have hn : n ∈ u.names q := FileTree.mem_names.mpr ⟨k, hk⟩
    rw [hempty] at hn
    cases hn

/-- A last call that is answered returns only if the answer is no error. -/
theorem finishRemoval_answer {reply : Except POSIXErrorCode Unit × RemoteTree}
    (h : (finishRemoval (s.answer reply) calls).1 = .returned) :
    reply.1 = .ok () ∧ (finishRemoval (s.answer reply) calls).2.server.tree = reply.2 := by
  obtain ⟨faults, -, ⟨-, e, heq⟩ | heq⟩ := answer_cases s reply
  · rw [heq] at h
    cases h
  · obtain ⟨⟨e⟩ | ⟨⟩, u⟩ := reply
    · rw [heq] at h
      cases h
    · rw [heq]
      exact ⟨rfl, rfl⟩

theorem finishRemoval_server (answer : Except POSIXErrorCode Unit × Remote) (calls : List RemoveCall) :
    (finishRemoval answer calls).2.server = answer.2 := by
  obtain ⟨⟨e⟩ | ⟨⟩, s⟩ := answer <;> rfl

/-! ## Names that are not texts -/

/-- A path denotes no name that is not the encoding of a text. -/
theorem wellFormed_of_mem_locationOf (h : n ∈ locationOf path) : IsWellFormed n := by
  have hall : ∀ m ∈ locationOf path, IsWellFormed m := by
    refine List.foldlRecOn (motive := fun l => ∀ m ∈ l, IsWellFormed m) _ _ ?_ ?_
    · intro m hm
      cases hm
    · intro l hl m hm
      have hparent : ∀ m ∈ parentLocation l, IsWellFormed m := by
        unfold parentLocation
        split
        · intro m hm
          rw [List.mem_singleton.mp hm]
          exact wellFormed_utf8 []
        · exact fun m hm => hl m (List.dropLast_subset l hm)
      split
      · exact hl
      · split
        · exact hparent
        · intro m' hm'
          rcases List.mem_append.mp hm' with hm' | hm'
          · exact hl m' hm'
          · rw [List.mem_singleton.mp hm']
            exact wellFormed_of_mem_byteParts hm
  exact hall n h

/-- A path is resolved to nothing whose name is not the encoding of a text. -/
theorem wellFormed_of_resolve (h : t.resolve false hops (locationOf path) = some (p ++ [n])) :
    IsWellFormed n := by
  have hne : locationOf path ≠ [] := by
    intro hnil
    rw [hnil] at h
    cases hops <;> simp [resolve, steps] at h
  have hlast := resolve_getLast? hne h
  rw [List.getLast?_concat] at hlast
  exact wellFormed_of_mem_locationOf (List.mem_of_getLast? hlast.symm)

/-! ## What stays -/

variable [Characters]

theorem removeItem_sub (hops levels : Nat) (path : Text) (r : RemoveState Remote)
    (h : Sub r.server.tree.toFileTree t.toFileTree) :
    Sub (removeItem (remoteServer hops) levels path r).2.server.tree.toFileTree t.toFileTree := by
  refine removeItem_preserves (I := fun s => Sub s.tree.toFileTree t.toFileTree) ?_ ?_ ?_ ?_ levels path
    r h
  · intro s path hs
    exact (answer_sub (Sub.refl _)).trans hs
  · intro s path hs
    exact (answer_sub (Sub.refl _)).trans hs
  · intro s path st hs _ _
    have hstat : Sub ((remoteServer hops).stat s path).2.tree.toFileTree t.toFileTree :=
      (answer_sub (Sub.refl _)).trans hs
    exact (answer_sub (unlink_sub _ hops path)).trans hstat
  · intro s path hs
    exact (answer_sub (rmdir_sub _ hops path)).trans hs

/-- An entry stays if no call that would remove it works on it: it is taken for a directory where its path
is asked for, and if it is one, no path leads to it. -/
theorem entry_stays {z : Location}
    (hunlink : ∀ (u : RemoteTree) (path : Text) (st : NfsStat64), Sub u.toFileTree t.toFileTree →
      u.kindAt z = some k → u.resolve false hops (locationOf path) = some z →
        u.stat hops path = .ok st → st.nfs_mode &&& S_IFMT = S_IFDIR)
    (hrmdir : ∀ (u : RemoteTree) (path : Text), k = .directory →
      u.resolve false hops (locationOf path) ≠ some z)
    (levels : Nat) (path : Text) (r : RemoveState Remote) (hsub : Sub r.server.tree.toFileTree t.toFileTree)
    (hhere : r.server.tree.kindAt z = some k) :
    (removeItem (remoteServer hops) levels path r).2.server.tree.kindAt z = some k := by
  refine (removeItem_preserves
    (I := fun s => Sub s.tree.toFileTree t.toFileTree ∧ s.tree.kindAt z = some k)
    ?_ ?_ ?_ ?_ levels path r ⟨hsub, hhere⟩).2
  · rintro s path ⟨hs, hk⟩
    exact ⟨(answer_sub (Sub.refl _)).trans hs, answer_kindAt hk hk⟩
  · rintro s path ⟨hs, hk⟩
    exact ⟨(answer_sub (Sub.refl _)).trans hs, answer_kindAt hk hk⟩
  · rintro s path st ⟨hs, hk⟩ hstat hmode
    obtain ⟨faults, -, ⟨-, e, heq⟩ | heq⟩ := answer_cases s (s.tree.stat hops path, s.tree)
    · have heq : (remoteServer hops).stat s path = (.error e, ⟨s.tree, faults⟩) := heq
      rw [heq] at hstat
      cases hstat
    have heq : (remoteServer hops).stat s path = (s.tree.stat hops path, ⟨s.tree, faults⟩) := heq
    rw [heq] at hstat ⊢
    refine ⟨(answer_sub (unlink_sub _ hops path)).trans hs, answer_kindAt hk ?_⟩
    show (s.tree.unlink hops path).2.kindAt z = _
    obtain ⟨e, hcall⟩ | ⟨q, hq, hqkind, hcall⟩ := unlink_cases s.tree hops path
    · rw [hcall]
      exact hk
    rw [hcall]
    refine (kindAt_erase_other fun hpre => ?_).trans hk
    -- what is unlinked is not above the entry, so it is the entry itself
    obtain ⟨rest, hrest⟩ := hpre
    obtain rfl : q = z := by
      by_contra hne
      refine hqkind (kindAt_of_append (hrest ▸ hk) fun hnil => hne ?_)
      rw [← hrest, hnil, List.append_nil]
    exact hmode (hunlink s.tree path st hs hk hq hstat)
  · rintro s path ⟨hs, hk⟩
    refine ⟨(answer_sub (rmdir_sub _ hops path)).trans hs, answer_kindAt hk ?_⟩
    obtain ⟨e, hcall⟩ | ⟨q, hq, hqkind, hempty, hcall⟩ := rmdir_cases s.tree hops path
    · rw [hcall]
      exact hk
    rw [hcall]
    refine (kindAt_erase_other fun hpre => ?_).trans hk
    -- an empty directory is not above the entry either
    obtain ⟨rest, hrest⟩ := hpre
    cases rest with
    | nil =>
      rw [List.append_nil] at hrest
      rw [hrest, hk] at hqkind
      exact hrmdir s.tree path (Option.some.inj hqkind) (hrest ▸ hq)
    | cons n rest =>
      have hn : n ∈ s.tree.names q := mem_names_of_kindAt (hrest ▸ hk)
      rw [hempty] at hn
      cases hn

/-- A link that leads to a directory stays: `stat` takes it for the directory, so it is not unlinked. -/
theorem link_stays (hops : Nat) {z : Location} {target d : Location} {hops' : Nat}
    (hz : t.kindAt z = some (.link target)) (hd : t.resolve true hops' target = some d)
    (hdir : t.kindAt d = some .directory) (levels : Nat) (path : Text) (calls : List RemoveCall)
    (faults : List (Option POSIXErrorCode)) :
    (removeItem (remoteServer hops) levels path ⟨⟨t, faults⟩, calls⟩).2.server.tree.kindAt z =
      some (.link target) := by
  refine entry_stays ?_ (fun u path hk => by cases hk) levels path _ (Sub.refl _) hz
  intro u path st hsub hk hres hstat
  cases hr : u.resolve true hops (locationOf path) with
  | none =>
    rw [stat_of_none hr] at hstat
    cases hstat
  | some r =>
    obtain ⟨st', hst', hmode'⟩ := stat_of_some hr
    obtain rfl : st' = st := Except.ok.inj (hst'.symm.trans hstat)
    obtain ⟨hops'', htarget⟩ := resolve_link hk hres hr
    obtain rfl := resolve_unique hsub (Sub.refl _) htarget hd
    obtain ⟨k, hrk, -⟩ := resolve_kind hr
    have hrdir := hsub.kindAt hrk
    rw [hdir] at hrdir
    obtain rfl := Option.some.inj hrdir
    exact hmode'.mpr hrk

/-- An entry whose name is not the encoding of a text stays: no path leads to it. -/
theorem illFormed_stays (hk : t.kindAt (p ++ [n]) = some k) (hn : ¬ IsWellFormed n) (levels : Nat)
    (path : Text) (calls : List RemoveCall) (faults : List (Option POSIXErrorCode)) :
    (removeItem (remoteServer hops) levels path ⟨⟨t, faults⟩, calls⟩).2.server.tree.kindAt (p ++ [n]) =
      some k := by
  refine entry_stays ?_ ?_ levels path _ (Sub.refl _) hk
  · intro u path st _ _ hres _
    exact absurd (wellFormed_of_resolve hres) hn
  · intro u path _ hres
    exact hn (wellFormed_of_resolve hres)

/-! ## A path with a NUL -/

/-- Behind a NUL no name is read: what is listed for the path leads back to it, for ever. -/
theorem removeItem_endless (hnul : ¬ NulFree path)
    (hres : s.tree.resolve true hops (locationOf path) = some p)
    (hdir : s.tree.kindAt p = some .directory) (hne : s.tree.names p ≠ []) (hcalm : Calm s)
    (levels : Nat) (calls : List RemoveCall) :
    (removeItem (remoteServer hops) levels path ⟨s, calls⟩).1 = .unfinished ∨
      (removeItem (remoteServer hops) levels path ⟨s, calls⟩).1 = .trapped := by
  induction levels generalizing path s calls with
  | zero => exact .inl rfl
  | succ levels ih =>
    obtain ⟨hfault, -⟩ | ⟨faults, hfaults, heq⟩ := removeItem_found hres levels calls
    · exact absurd hcalm hfault
    rw [heq, if_pos hdir]
    obtain ⟨hfault, -⟩ | ⟨-, r, htrapped, -⟩ | ⟨items, s', calls', hitems, -, htree, hcalm', hloop⟩ :=
      removeDirectory_cases (s := ⟨s.tree, faults⟩) (removeItem (remoteServer hops) levels) hres hdir
        (calls ++ [.stat path])
    · exact absurd (hfaults hcalm) hfault
    · rw [htrapped]
      exact .inr rfl
    · obtain ⟨n, names, hnames⟩ := List.exists_cons_of_ne_nil hne
      rw [show RemoteTree.toFileTree _ = s.tree.toFileTree from rfl, hnames, List.map_cons] at hitems
      obtain ⟨item, items, rfl, hkey, -⟩ := List.map_eq_cons_iff.mp hitems
      have hn : n ∈ s.tree.names p := by simp [hnames]
      obtain ⟨k, hk⟩ := FileTree.mem_names.mp hn
      have hback : locationOf (append path (ofCString n)) = locationOf path := by
        unfold locationOf
        rw [byteParts_append_of_nul hnul]
      have hnul' : ¬ NulFree (append path (ofCString n)) := fun h => hnul h.of_append
      have hrun := ih (s := s') hnul' (by rw [hback, htree]; exact hres) (by rw [htree]; exact hdir)
        (by rw [htree]; exact hne) (hcalm' (hfaults hcalm))
        (calls' ++ [.removeItem path (ofCString n) (append path (ofCString n))])
      have hcons : removeEntries (removeItem (remoteServer hops) levels) path (item :: items)
          ⟨s', calls'⟩ = _ := removeEntries_entry hk hkey items
      dsimp only at hcons
      generalize removeItem (remoteServer hops) levels (append path (ofCString n)) _ = r at hrun hcons
      have hended : r.1 ≠ .returned := by
        rcases hrun with hrun | hrun <;> simp [hrun]
      rw [if_neg hended] at hcons
      rw [hloop, hcons, if_neg hended]
      exact hrun

/-! ## What a run that returns has removed -/

theorem removeEntries_sub (hops levels : Nat) (path : Text) (items : List Attributes)
    (calls : List RemoveCall) :
    Sub (removeEntries (removeItem (remoteServer hops) levels) path items ⟨s, calls⟩).2.server.tree.toFileTree
      s.tree.toFileTree :=
  removeEntries_preserves (I := fun s' => Sub s'.tree.toFileTree s.tree.toFileTree)
    (fun path r h => removeItem_sub hops levels path r h) path items (Sub.refl _)

/-- What `removeItem` returned for is gone. -/
theorem gone_of_returned (hp : s.tree.resolve false hops (locationOf path) = some p) (hne : p ≠ [])
    (h : (removeItem (remoteServer hops) levels path ⟨s, calls⟩).1 = .returned) :
    (removeItem (remoteServer hops) levels path ⟨s, calls⟩).2.server.tree.kindAt p = none := by
  have erased {u : RemoteTree} : (u.erase p).kindAt p = none :=
    (FileTree.kindAt_erase u.toFileTree p p).trans (if_pos ⟨hne, List.prefix_refl p⟩)
  cases levels with
  | zero => cases h
  | succ levels =>
    obtain ⟨e, faults, -, heq⟩ | ⟨r, faults, hr, -, heq⟩ := removeItem_cases hops levels path s calls
    · rw [heq] at h
      cases h
    rw [heq] at h ⊢
    by_cases hdir : s.tree.kindAt r = some .directory
    · rw [if_pos hdir] at h ⊢
      obtain ⟨-, e, r', heq', -⟩ | ⟨-, r', heq', -⟩ | ⟨items, s', calls', -, -, htree, -, heq'⟩ :=
        removeDirectory_cases (s := ⟨s.tree, faults⟩) (removeItem (remoteServer hops) levels) hr hdir
          (calls ++ [.stat path])
      · rw [heq'] at h
        cases h
      · rw [heq'] at h
        cases h
      have hsub := removeEntries_sub (s := s') hops levels path items calls'
      rw [htree] at hsub
      rw [heq'] at h ⊢
      split at h
      · rename_i hloop
        rw [if_pos hloop]
        obtain ⟨hok, hleft⟩ := finishRemoval_answer h
        refine (congrArg (fun u : RemoteTree => u.kindAt p) hleft).trans ?_
        obtain ⟨e, hrmdir⟩ | ⟨q, hq, -, -, hrmdir⟩ := rmdir_cases
          (removeEntries (removeItem (remoteServer hops) levels) path items ⟨s', calls'⟩).2.server.tree
          hops path
        · rw [hrmdir] at hok
          cases hok
        · obtain rfl := resolve_unique hsub (Sub.refl _) hq hp
          rw [hrmdir]
          exact erased
      · rename_i hloop
        exact absurd h hloop
    · rw [if_neg hdir] at h ⊢
      obtain ⟨hok, hleft⟩ := finishRemoval_answer h
      refine (congrArg (fun u : RemoteTree => u.kindAt p) hleft).trans ?_
      obtain ⟨e, hunlink⟩ | ⟨q, hq, -, hunlink⟩ := unlink_cases s.tree hops path
      · rw [hunlink] at hok
        cases hok
      · obtain rfl := Option.some.inj (hq.symm.trans hp)
        rw [hunlink]
        exact erased

/-! ## What a run that leaves nothing has found -/

/-- What can be removed entry by entry, each at its turn, can be removed. -/
theorem Removable.of_children (hreadable : Readable t path p) (hdir : t.kindAt p = some .directory)
    (hsizes : ∀ x ∈ t.children p, x.2.size < 2 ^ 63)
    (h : ∀ done n names, t.names p = done ++ n :: names →
      Removable hops (t.eraseAll p done) (append path (ofCString n)) (p ++ [n])) :
    Removable hops t path p where
  toReadable := hreadable
  links := by
    intro rest target hk
    cases rest with
    | nil =>
      rw [List.append_nil, hdir] at hk
      cases hk
    | cons n rest =>
      have hn := mem_names_of_kindAt hk
      obtain ⟨done, names, hnames⟩ := List.append_of_mem hn
      have hsplit (l : Location) : l ++ n :: rest = l ++ [n] ++ rest := by simp
      have hk' := (kindAt_eraseAll (not_listed_before hnames) rest).trans hk
      rw [hsplit] at hk'
      obtain ⟨r, hr, hrkind⟩ := (h done n names hnames).links rest target hk'
      rw [hreadable.locationOf_append hn, ← hsplit] at hr
      rw [turn_cons hnames]
      exact ⟨r, hr, hrkind⟩
  sizes := by
    intro x hx hbelow
    obtain ⟨⟨rest, hrest⟩, hne⟩ := hbelow
    cases rest with
    | nil => exact absurd (hrest.symm.trans (List.append_nil p)) hne
    | cons n rest =>
      have hk : t.kindAt (p ++ n :: rest) = some x.kind := hrest ▸ kindAt_of_mem hx
      obtain ⟨done, names, hnames⟩ := List.append_of_mem (mem_names_of_kindAt hk)
      by_cases hnil : rest = []
      · rw [hnil] at hrest
        exact hsizes (n, x.data) (FileTree.mem_children.mpr ⟨x, hx, hrest.symm, rfl⟩)
      · refine (h done n names hnames).sizes x (mem_eraseAll'.mpr ⟨hx, ?_⟩) ⟨⟨rest, ?_⟩, ?_⟩
        · rw [← hrest]
          exact not_below_others (not_listed_before hnames)
        · rw [← hrest]
          simp
        · rw [← hrest]
          simpa using hnil

/-- `remove` removes only what can be removed, if its paths can be read. -/
def Demands (hops : Nat)
    (remove : Text → RemoveState Remote → RemoveOutcome × RemoveState Remote) : Prop :=
  ∀ (s : Remote) (calls : List RemoveCall) (path : Text) (p : Location) (k : NodeKind (List UInt8)),
    Calm s → p ≠ [] → s.tree.kindAt p = some k → Readable s.tree path p →
      s.tree.resolve false hops (locationOf path) = some p →
        (remove path ⟨s, calls⟩).2.server.tree.kindAt p = none → Removable hops s.tree path p

/-- If the loop leaves no entry of the directory, each could be removed when its turn came. -/
theorem removeEntries_demands (hdemands : Demands hops (removeItem (remoteServer hops) levels))
    (hdir : t.kindAt p = some .directory) (hres : t.resolve true hops (locationOf path) = some p)
    (hreadable : Readable t path p) {items : List Attributes} {done names : List (List UInt8)}
    (hitems : items.map Attributes.nameKey = names.map ofCString) (hnames : t.names p = done ++ names)
    (htree : s.tree = t.eraseAll p done) (hcalm : Calm s) (calls : List RemoveCall)
    (hgone : ∀ n, (removeEntries (removeItem (remoteServer hops) levels) path items
      ⟨s, calls⟩).2.server.tree.kindAt (p ++ [n]) = none)
    {before after : List (List UInt8)} (hsplit : names = before ++ n :: after) :
    Removable hops (t.eraseAll p (done ++ before)) (append path (ofCString n)) (p ++ [n]) := by
  induction names generalizing items done s calls before with
  | nil => simp at hsplit
  | cons m names ih =>
    obtain ⟨item, items, rfl, hkey, hitems⟩ := List.map_eq_cons_iff.mp hitems
    have hmem : m ∈ t.names p := by simp [hnames]
    obtain ⟨k, hk⟩ := FileTree.mem_names.mp hmem
    have hk' : s.tree.kindAt (p ++ [m]) = some k := by
      rw [htree]
      exact (kindAt_eraseAll (not_listed_before hnames) []).trans hk
    have hne : p ++ [m] ≠ [] := by simp
    rw [removeEntries_entry hk hkey] at hgone
    dsimp only at hgone
    generalize hcalls :
      calls ++ [.removeItem path (ofCString m) (append path (ofCString m))] = calls' at hgone
    have hsub : Sub s.tree.toFileTree t.toFileTree := htree ▸ sub_eraseAll' t p done
    -- the entry is still found by its path
    have hhere : s.tree.resolve false hops (locationOf (append path (ofCString m))) =
        some (p ++ [m]) := by
      cases hq : s.tree.resolve false hops (locationOf (append path (ofCString m))) with
      | none =>
        exfalso
        obtain ⟨hsame, hended⟩ := removeItem_nowhere levels hq calls'
        have hnot : (removeItem (remoteServer hops) levels (append path (ofCString m))
            ⟨s, calls'⟩).1 ≠ .returned := by
          rcases hended with ⟨hunfinished, -⟩ | ⟨e, hthrew⟩
          · simp [hunfinished]
          · simp [hthrew]
        have hgone := hgone m
        rw [if_neg hnot, hsame, hk'] at hgone
        cases hgone
      | some q =>
        have hwhole : t.resolve false hops (locationOf path ++ [m]) = _ :=
          resolve_concat hdir hk (fun _ _ => rfl) hres
        rw [← hreadable.locationOf_append hmem] at hwhole
        rw [resolve_unique hsub (Sub.refl _) hq hwhole]
    have hentry : (removeItem (remoteServer hops) levels (append path (ofCString m))
        ⟨s, calls'⟩).2.server.tree.kindAt (p ++ [m]) = none := by
      by_cases hreturned : (removeItem (remoteServer hops) levels (append path (ofCString m))
          ⟨s, calls'⟩).1 = .returned
      · exact gone_of_returned hhere hne hreturned
      · have hgone := hgone m
        rwa [if_neg hreturned] at hgone
    have hremovable := hdemands s calls' _ _ k hcalm hne hk' (hreadable.child hmem hsub) hhere hentry
    cases before with
    | nil =>
      obtain ⟨rfl, -⟩ := List.cons.inj hsplit
      rw [List.append_nil, ← htree]
      exact hremovable
    | cons m' before =>
      obtain ⟨rfl, hrest⟩ := List.cons.inj hsplit
      obtain ⟨bound, hbound⟩ := exists_bound s.tree
      have hrun := removeItem_removes hops bound levels s calls' _ _ k hbound hne hk' hhere hremovable
      generalize removeItem (remoteServer hops) levels (append path (ofCString m)) ⟨s, calls'⟩ = r
        at hgone hentry hrun
      cases hrun with
      | @done r hleft hcalm' =>
        rw [if_pos rfl] at hgone
        have hnext := ih (s := r.server) hitems (by rw [hnames, List.append_cons])
          (by rw [hleft, htree, eraseAll_concat]) (hcalm' hcalm) r.calls hgone hrest
        rwa [List.append_assoc] at hnext
      | unfinished hkept =>
        have hstays := (hkept.kindAt fun hbelow => hbelow.2 rfl).trans hk'
        rw [hentry] at hstays
        cases hstays
      | failed hkept hfault => exact absurd hcalm hfault

theorem removeDirectory_demands (hdemands : Demands hops (removeItem (remoteServer hops) levels))
    (hdir : s.tree.kindAt p = some .directory)
    (hres : s.tree.resolve false hops (locationOf path) = some p)
    (hreadable : Readable s.tree path p) (hcalm : Calm s) (calls : List RemoveCall)
    (hgone : ∀ n, (removeDirectoryRecursive (remoteServer hops) (removeItem (remoteServer hops) levels)
      path ⟨s, calls⟩).2.server.tree.kindAt (p ++ [n]) = none) : Removable hops s.tree path p := by
  have hres' := resolve_follow (fun target => by simp [hdir]) hres
  obtain ⟨hfault, -⟩ | ⟨hsizes, r, heq, htree⟩ |
      ⟨items, s', calls', hnames, hsizes, htree, hcalm', heq⟩ :=
    removeDirectory_cases (removeItem (remoteServer hops) levels) hres' hdir calls
  · exact absurd hcalm hfault
  · -- the entry whose size does not fit is still there
    exfalso
    rw [heq] at hgone
    refine hsizes fun x hx => absurd (hgone x.1) ?_
    obtain ⟨e, he, hloc, -⟩ := FileTree.mem_children.mp hx
    have hk := kindAt_of_mem he
    rw [htree, ← hloc, hk]
    simp
  · refine .of_children hreadable hdir hsizes fun done n names hsplit => ?_
    have hsub := removeEntries_sub (s := s') hops levels path items calls'
    rw [htree] at hsub
    have hloop (m : List UInt8) : (removeEntries (removeItem (remoteServer hops) levels) path items
        ⟨s', calls'⟩).2.server.tree.kindAt (p ++ [m]) = none := by
      have hgone := hgone m
      rw [heq] at hgone
      split at hgone
      · rw [finishRemoval_server] at hgone
        by_contra hsome
        obtain ⟨k, hk⟩ := Option.ne_none_iff_exists'.mp hsome
        have hstays : ((remoteServer hops).rmdir (removeEntries (removeItem (remoteServer hops) levels)
            path items ⟨s', calls'⟩).2.server path).2.tree.kindAt (p ++ [m]) = some k := by
          exact answer_kindAt hk (rmdir_child hsub hres hk)
        rw [hgone] at hstays
        cases hstays
      · exact hgone
    have hchild : Removable hops (s.tree.eraseAll p ([] ++ done)) _ _ :=
      removeEntries_demands hdemands hdir hres' hreadable hnames rfl (htree.trans rfl) (hcalm' hcalm) calls'
        hloop hsplit
    rwa [List.nil_append] at hchild

/-- What a run of `removeItem` has removed could be removed. -/
theorem removeItem_demands (hops levels : Nat) :
    Demands hops (removeItem (remoteServer hops) levels) := by
  induction levels with
  | zero =>
    intro s calls path p k hcalm hp hk hreadable hres hgone
    exact absurd (hgone.symm.trans hk) (by simp)
  | succ levels ih =>
    intro s calls path p k hcalm hp hk hreadable hres hgone
    obtain ⟨e, faults, -, heq⟩ | ⟨r, faults, hr, hfaults, heq⟩ := removeItem_cases hops levels path s calls
    · rw [heq] at hgone
      exact absurd (hgone.symm.trans hk) (by simp)
    -- what is no link is what `stat` has found
    have hsame (hnolink : ∀ target, k ≠ .link target) : r = p := by
      have hfollow := resolve_follow (fun target => by simp [hk, hnolink]) hres
      exact Option.some.inj (hr.symm.trans hfollow)
    by_cases hdir : s.tree.kindAt r = some .directory
    · cases k with
      | leaf =>
        rw [hsame (by simp), hk] at hdir
        cases hdir
      | directory =>
        rw [heq, if_pos hdir] at hgone
        refine removeDirectory_demands (s := ⟨s.tree, faults⟩) ih hk hres hreadable (hfaults hcalm)
          (calls ++ [.stat path]) fun n => ?_
        by_contra hsome
        obtain ⟨k, hchild⟩ := Option.ne_none_iff_exists'.mp hsome
        exact absurd (hgone.symm.trans (kindAt_of_concat hchild)) (by simp)
      | link target =>
        obtain ⟨hops', htarget⟩ := resolve_link hk hres hr
        have hstays := link_stays hops hk htarget hdir (levels + 1) path calls s.faults
        exact absurd (hgone.symm.trans hstays) (by simp)
    · have hleaf : s.tree.kindAt p ≠ some .directory := by
        intro hdir'
        have hkind : k = .directory := Option.some.inj (hk.symm.trans hdir')
        exact hdir (by rw [hsame (by simp [hkind]), hdir'])
      refine ⟨hreadable, fun rest target hlink => ?_, fun x hx hbelow => ?_⟩
      · by_cases hnil : rest = []
        · subst hnil
          exact ⟨r, by rwa [List.append_nil], hdir⟩
        · exact absurd (kindAt_of_append hlink hnil) hleaf
      · obtain ⟨⟨rest, hrest⟩, hne⟩ := hbelow
        have hnil : rest ≠ [] := by
          rintro rfl
          exact hne (hrest.symm.trans (List.append_nil p))
        exact absurd (kindAt_of_append (hrest ▸ kindAt_of_mem hx) hnil) hleaf

/-- What a run has removed could be read: an ill-formed name would have stayed, and behind a NUL the run
would not have come to its end. -/
theorem readable_of_gone (hres : t.resolve false hops (locationOf path) = some p)
    (hended : (removeFrom hops levels ⟨t, []⟩ path).1 ≠ .unfinished ∧
      (removeFrom hops levels ⟨t, []⟩ path).1 ≠ .trapped)
    (hgone : ∀ q, q ≠ [] → p <+: q →
      (removeFrom hops levels ⟨t, []⟩ path).2.server.tree.kindAt q = none) : Readable t path p where
  names := by
    intro rest k hk n hn
    by_contra hill
    obtain ⟨front, back, rfl⟩ := List.append_of_mem hn
    have hsplit : p ++ (front ++ n :: back) = p ++ front ++ [n] ++ back := by simp
    obtain ⟨k', hk'⟩ : ∃ k', t.kindAt (p ++ front ++ [n]) = some k' := by
      by_cases hback : back = []
      · rw [hsplit, hback, List.append_nil] at hk
        exact ⟨k, hk⟩
      · exact ⟨.directory, kindAt_of_append (hsplit ▸ hk) hback⟩
    have hstays : (removeFrom hops levels ⟨t, []⟩ path).2.server.tree.kindAt _ = some k' :=
      illFormed_stays hk' hill levels path [] []
    have hgone := hgone (p ++ front ++ [n]) (by simp) (by rw [List.append_assoc]; exact List.prefix_append ..)
    exact absurd (hgone.symm.trans hstays) (by simp)
  nul := by
    intro hnul
    by_contra hne
    obtain ⟨n, hn⟩ := List.exists_mem_of_ne_nil _ hne
    obtain ⟨k, hk⟩ := FileTree.mem_names.mp hn
    have hdir := kindAt_of_concat hk
    have hfollow := resolve_follow (fun target => by simp [hdir]) hres
    rcases removeItem_endless (s := ⟨t, []⟩) hnul hfollow hdir hne (fun x hx => by cases hx) levels []
      with hrun | hrun
    · exact hended.1 hrun
    · exact hended.2 hrun

/-- `removeItem` removes the subtree, and nothing else, exactly if the names in it can be read, each link
of it leads to something that is no directory when its turn comes, and every listed size fits. -/
theorem removesSubtree_iff (hops : Nat) (t : RemoteTree) (path : Text) :
    RemovesSubtree hops t path ↔
      ∀ p, t.resolve false hops (locationOf path) = some p → Removable hops t path p := by
  constructor
  · intro h p hres
    have hcalm : Calm ⟨t, []⟩ := fun x hx => by cases hx
    obtain ⟨levels, hended⟩ := h.ends []
    have hfinished : (removeFrom hops levels ⟨t, []⟩ path).1 ≠ .unfinished ∧
        (removeFrom hops levels ⟨t, []⟩ path).1 ≠ .trapped := by
      rcases hended with hreturned | ⟨e, hthrew⟩
      · simp [hreturned]
      · simp [hthrew]
    have hwhole := h.whole [] levels (fun x hx => by cases hx) hfinished.1
    have hgone (q : Location) (hq : q ≠ []) (hpre : p <+: q) :
        (removeFrom hops levels ⟨t, []⟩ path).2.server.tree.kindAt q = none := by
      by_contra hsome
      obtain ⟨k, hk⟩ := Option.ne_none_iff_exists'.mp hsome
      obtain ⟨x, hx, hloc, -⟩ := (kindAt_eq_some hq).mp hk
      exact hwhole x hx ⟨p, hres, hloc ▸ hpre⟩
    have hreadable := readable_of_gone hres hfinished hgone
    by_cases hp : p = []
    · subst hp
      cases levels with
      | zero => exact absurd rfl hfinished.1
      | succ levels =>
        have hdir := t.kindAt_nil
        have hfollow := resolve_follow (fun target => by simp [hdir]) hres
        obtain ⟨hfault, -⟩ | ⟨faults, hfaults, heq⟩ := removeItem_found (s := ⟨t, []⟩) hfollow levels []
        · exact absurd hcalm hfault
        simp only [removeFrom, heq, if_pos hdir] at hgone
        exact removeDirectory_demands (s := ⟨t, faults⟩) (removeItem_demands hops levels) hdir hres
          hreadable (hfaults hcalm) _ fun n => hgone _ (by simp) List.nil_prefix
    · obtain ⟨k, hk, -⟩ := resolve_kind hres
      exact removeItem_demands hops levels ⟨t, []⟩ [] path p k hcalm hp hk hreadable hres
        (hgone p hp (List.prefix_refl p))
  · intro h
    obtain ⟨bound, hbound⟩ := exists_bound t
    have hright (faults : List (Option POSIXErrorCode)) (levels : Nat) :=
      removeFrom_right (s := ⟨t, faults⟩) levels hbound h
    refine ⟨fun faults => ⟨bound + 1, ?_⟩, fun faults levels => (hright faults levels).kept,
      fun faults levels hcalm => (hright faults levels).gone hcalm⟩
    have hrun := hright faults (bound + 1)
    cases houtcome : (removeFrom hops (bound + 1) ⟨t, faults⟩ path).1 with
    | returned => exact .inl rfl
    | threw e => exact .inr ⟨e, rfl⟩
    | trapped => exact absurd houtcome hrun.trapped
    | unfinished => exact absurd (hrun.unfinished houtcome) (by omega)

/-! ## A link to a directory outside -/

/-- An object of the kind, with no data. -/
def plainObject (kind : FileKind) : RemoteObject :=
  ⟨kind, 0, Nat.two_pow_pos 12, 1, 0, 0, 0, .epoch, .epoch, .epoch⟩

/-- The directory `/d` has a link `/d/l` to the directory `/o`, and there is the file `/o/f`. -/
def linkedTree : RemoteTree where
  entries := [⟨[[0x64]], .directory, plainObject .directory⟩,
    ⟨[[0x6F]], .directory, plainObject .directory⟩,
    ⟨[[0x64], [0x6C]], .link [[0x6F]], plainObject .symbolicLink⟩,
    ⟨[[0x6F], [0x66]], .leaf, plainObject .regular⟩]
  nodup := by decide
  located := by decide
  closed := by decide
  root := plainObject .directory
  safe := by decide
  kinds := by
    simp only [List.forall_mem_cons]
    simp [plainObject]
  root_kind := rfl

omit [Characters] in
/-- Removing `/d` removes the file `/o/f`, and then fails on the link. -/
theorem linkedTree_not_removesSubtree :
    ¬ ∀ (hops : Nat) (t : RemoteTree) (path : Text), @RemovesSubtree markCharacters hops t path := by
  let _ : Characters := markCharacters
  intro h
  have hfile : ⟨[[0x6F], [0x66]], .leaf, plainObject .regular⟩ ∈ linkedTree.entries := by
    simp [linkedTree]
  have hout : ¬ linkedTree.InSubtree 1 ['/', 'd'] [[0x6F], [0x66]] := by
    rintro ⟨p, hp, hpre⟩
    have hd : linkedTree.resolve false 1 (locationOf ['/', 'd']) = some [[0x64]] := by decide +kernel
    rw [hd] at hp
    obtain rfl := Option.some.inj hp
    exact absurd hpre (by decide)
  have hkept := (h 1 linkedTree ['/', 'd']).inside [] 3 _ hfile hout
  have hrun :
      (removeFrom 1 3 ⟨linkedTree, []⟩ ['/', 'd']).2.server.tree.kindAt [[0x6F], [0x66]] = none := by
    decide +kernel
  rw [kindAt_of_mem hkept] at hrun
  cases hrun

end NFSKit.RemoteTree
