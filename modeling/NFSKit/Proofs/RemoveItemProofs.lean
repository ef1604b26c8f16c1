import NFSKit.RemoveItem
import NFSKit.Proofs.AttributesProofs

/-!
# Proofs: removing a tree

Every call only adds to the record, and what it adds stays below its path: the names it has taken out of
the listings lead there. A name that is not empty leads one component down, so the recursion ends if no
other name is taken.
-/

namespace NFSKit.NFSClient

open Paths Utf8 NFSEventLoop

variable [Characters] {σ : Type} {srv : Server σ} {s : RemoveState σ} {path q name : Text} {levels : Nat}
  {new new' : List RemoveCall} {r r' : RemoveOutcome × RemoveState σ}

/-! ## The calls of a run -/

/-- The name has been taken out of a listing and passed on. -/
def Taken (new : List RemoveCall) (name : Text) : Prop :=
  isRemovable name ∧ NulFree name ∧ ∃ p f, RemoveCall.removeItem p name f ∈ new

/-- Names that have been taken lead from the path to `q`. -/
def Reached (new : List RemoveCall) (path q : Text) : Prop :=
  ∃ names : List Text, (∀ n ∈ names, Taken new n) ∧ names.foldl append path = q

/-- The call works on a path below, and a recursive one on an entry of such a path. -/
def Within (new : List RemoveCall) (path : Text) : RemoveCall → Prop
  | .stat q => Reached new path q
  | .list q => Reached new path q
  | .unlink q => Reached new path q
  | .rmdir q => Reached new path q
  | .removeItem p n f => Reached new path p ∧ Taken new n ∧ f = append p n

/-- A run has added calls below the path. -/
def Keeps (path : Text) (s : RemoveState σ) (r : RemoveOutcome × RemoveState σ) : Prop :=
  ∃ new, r.2.calls = s.calls ++ new ∧ ∀ c ∈ new, Within new path c

theorem Taken.mono (h : Taken new name) (hsub : ∀ c ∈ new, c ∈ new') : Taken new' name := by
  obtain ⟨hname, hnul, p, f, hmem⟩ := h
  exact ⟨hname, hnul, p, f, hsub _ hmem⟩

theorem Reached.mono (h : Reached new path q) (hsub : ∀ c ∈ new, c ∈ new') :
    Reached new' path q := by
  obtain ⟨names, hnames, rfl⟩ := h
  exact ⟨names, fun n hn => (hnames n hn).mono hsub, rfl⟩

theorem Reached.refl (new : List RemoveCall) (path : Text) : Reached new path path :=
  ⟨[], by simp, rfl⟩

theorem Reached.child (h : Reached new (append path name) q) (hname : Taken new name) :
    Reached new path q := by
  obtain ⟨names, hnames, rfl⟩ := h
  exact ⟨name :: names, List.forall_mem_cons.mpr ⟨hname, hnames⟩, rfl⟩

theorem Within.mono {c : RemoveCall} (h : Within new path c) (hsub : ∀ c ∈ new, c ∈ new') :
    Within new' path c := by
  cases c with
  | removeItem p n f => exact ⟨h.1.mono hsub, h.2.1.mono hsub, h.2.2⟩
  | stat q => exact Reached.mono h hsub
  | list q => exact Reached.mono h hsub
  | unlink q => exact Reached.mono h hsub
  | rmdir q => exact Reached.mono h hsub

theorem Within.child {c : RemoveCall} (h : Within new (append path name) c)
    (hname : Taken new name) : Within new path c := by
  cases c with
  | removeItem p n f => exact ⟨h.1.child hname, h.2⟩
  | stat q => exact Reached.child h hname
  | list q => exact Reached.child h hname
  | unlink q => exact Reached.child h hname
  | rmdir q => exact Reached.child h hname

theorem Keeps.refl (h : r.2.calls = s.calls) : Keeps path s r :=
  ⟨[], by simpa using h, by simp⟩

theorem Keeps.trans (h : Keeps path s r) (h' : Keeps path r.2 r') : Keeps path s r' := by
  obtain ⟨new, hcalls, hnew⟩ := h
  obtain ⟨new', hcalls', hnew'⟩ := h'
  refine ⟨new ++ new', by rw [hcalls', hcalls, List.append_assoc], fun c hc => ?_⟩
  rcases List.mem_append.mp hc with hc | hc
  · exact (hnew c hc).mono fun c hc => List.mem_append_left _ hc
  · exact (hnew' c hc).mono fun c hc => List.mem_append_right _ hc

/-- One call more. -/
theorem Keeps.call {c : RemoveCall} (h : r.2.calls = s.calls ++ [c]) (hc : Within [c] path c) :
    Keeps path s r :=
  ⟨[c], h, by simpa using hc⟩

omit [Characters] in
theorem finishRemoval_calls (answer : Except POSIXErrorCode Unit × σ) (calls : List RemoveCall) :
    (finishRemoval answer calls).2.calls = calls := by
  obtain ⟨_ | _, _⟩ := answer <;> rfl

omit [Characters] in
theorem finishRemoval_finished (answer : Except POSIXErrorCode Unit × σ) (calls : List RemoveCall) :
    (finishRemoval answer calls).1 ≠ .unfinished := by
  obtain ⟨_ | _, _⟩ := answer <;> simp [finishRemoval]

/-- One round of the loop, for an entry that is removed. -/
theorem removeEntries_cons {remove : Text → RemoveState σ → RemoveOutcome × RemoveState σ}
    {item : Attributes} (items : List Attributes) (h : isRemovable item.nameKey = true) :
    removeEntries remove path (item :: items) s
      = let r := remove (append path item.nameKey)
          ⟨s.server, s.calls ++ [.removeItem path item.nameKey (append path item.nameKey)]⟩
        if r.1 = .returned then removeEntries remove path items r.2 else r := by
  rw [removeEntries]
  dsimp only
  rw [if_pos h]
  generalize remove (append path item.nameKey) _ = r
  obtain ⟨outcome, s'⟩ := r
  cases outcome <;> rfl

theorem removeEntries_skip {remove : Text → RemoveState σ → RemoveOutcome × RemoveState σ}
    {item : Attributes} (items : List Attributes) (h : ¬isRemovable item.nameKey = true) :
    removeEntries remove path (item :: items) s = removeEntries remove path items s := by
  rw [removeEntries]
  dsimp only
  rw [if_neg h]

section Keeps

variable {remove : Text → RemoveState σ → RemoveOutcome × RemoveState σ}

/-- The calls for one entry: the recursive call, and what it adds below the entry. -/
theorem keeps_entry (hname : isRemovable name = true) (hnul : NulFree name) (server : σ)
    (h : Keeps (append path name)
      ⟨server, s.calls ++ [.removeItem path name (append path name)]⟩ r) : Keeps path s r := by
  obtain ⟨new, hcalls, hnew⟩ := h
  have htaken : Taken (.removeItem path name (append path name) :: new) name :=
    ⟨hname, hnul, path, append path name, List.mem_cons_self⟩
  refine ⟨.removeItem path name (append path name) :: new, by rw [hcalls]; simp, fun c hc => ?_⟩
  rcases List.mem_cons.mp hc with rfl | hc
  · exact ⟨Reached.refl _ _, htaken, rfl⟩
  · exact ((hnew c hc).mono fun c hc => List.mem_cons_of_mem _ hc).child htaken

theorem removeEntries_keeps (hremove : ∀ path s, Keeps path s (remove path s))
    {items : List Attributes} (hnul : ∀ item ∈ items, NulFree item.nameKey) (s : RemoveState σ) :
    Keeps path s (removeEntries remove path items s) := by
  induction items generalizing s with
  | nil => exact Keeps.refl rfl
  | cons item items ih =>
    obtain ⟨hitem, hitems⟩ := List.forall_mem_cons.mp hnul
    by_cases hname : isRemovable item.nameKey
    · rw [removeEntries_cons items hname]
      have hentry := keeps_entry hname hitem s.server
        (hremove (append path item.nameKey)
          ⟨s.server, s.calls ++ [.removeItem path item.nameKey (append path item.nameKey)]⟩)
      dsimp only
      split
      · exact hentry.trans (ih hitems _)
      · exact hentry
    · rw [removeEntries_skip items hname]
      exact ih hitems s

/-- A name is read up to its NUL. -/
theorem nulFree_of_readdirAll {ents : List Nfsdirent} {items : List Attributes}
    (h : readdirAll path ents = some items) : ∀ item ∈ items, NulFree item.nameKey := by
  intro item hitem
  obtain ⟨ent, -, hattributes⟩ := exists_of_mem_readdirAll h hitem
  rw [entryAttributes_nameKey hattributes]
  exact nul_not_mem_ofCString _

theorem removeDirectoryRecursive_keeps (hremove : ∀ path s, Keeps path s (remove path s))
    (path : Text) (s : RemoveState σ) :
    Keeps path s (removeDirectoryRecursive srv remove path s) := by
  unfold removeDirectoryRecursive
  obtain ⟨answer, server⟩ := srv.list s.server path
  have hlist : ∀ outcome, Keeps path s (outcome, ⟨server, s.calls ++ [.list path]⟩) :=
    fun outcome => Keeps.call rfl (Reached.refl _ _)
  dsimp only
  cases answer with
  | error e => exact hlist _
  | ok ents =>
    dsimp only
    cases hread : readdirAll path ents with
    | none => exact hlist _
    | some items =>
      have hitems := (hlist .returned).trans
        (removeEntries_keeps hremove (nulFree_of_readdirAll hread) ⟨server, s.calls ++ [.list path]⟩)
      dsimp only
      generalize removeEntries remove path items ⟨server, s.calls ++ [.list path]⟩ = r at hitems ⊢
      obtain ⟨outcome, s'⟩ := r
      cases outcome with
      | returned =>
        exact hitems.trans (Keeps.call (finishRemoval_calls _ _) (Reached.refl _ _))
      | threw e => exact hitems
      | trapped => exact hitems
      | unfinished => exact hitems

/-- A run of `removeItem` stays below its path. -/
theorem removeItem_keeps (srv : Server σ) (levels : Nat) (path : Text) (s : RemoveState σ) :
    Keeps path s (removeItem srv levels path s) := by
  induction levels generalizing path s with
  | zero => exact Keeps.refl rfl
  | succ levels ih =>
    unfold removeItem
    obtain ⟨answer, server⟩ := srv.stat s.server path
    have hstat : ∀ outcome, Keeps path s (outcome, ⟨server, s.calls ++ [.stat path]⟩) :=
      fun outcome => Keeps.call rfl (Reached.refl _ _)
    dsimp only
    cases answer with
    | error e => exact hstat _
    | ok stat =>
      dsimp only
      split
      · exact (hstat .returned).trans (removeDirectoryRecursive_keeps ih path _)
      · exact (hstat .returned).trans (Keeps.call (finishRemoval_calls _ _) (Reached.refl _ _))

end Keeps

/-! ## What a server keeps -/

section Preserves

variable {I : σ → Prop} {remove : Text → RemoveState σ → RemoveOutcome × RemoveState σ}

theorem removeEntries_preserves (hremove : ∀ path s, I s.server → I (remove path s).2.server)
    (path : Text) (items : List Attributes) (h : I s.server) :
    I (removeEntries remove path items s).2.server := by
  induction items generalizing s with
  | nil => exact h
  | cons item items ih =>
    by_cases hname : isRemovable item.nameKey
    · rw [removeEntries_cons items hname]
      have hentry := hremove (append path item.nameKey)
        ⟨s.server, s.calls ++ [.removeItem path item.nameKey (append path item.nameKey)]⟩ h
      dsimp only
      split
      · exact ih hentry
      · exact hentry
    · rw [removeEntries_skip items hname]
      exact ih h

/-- What holds of the server whatever call is made, and is not lost when something is unlinked that is no
directory, holds of it after a removal. -/
theorem removeItem_preserves (hstat : ∀ s path, I s → I (srv.stat s path).2)
    (hlist : ∀ s path, I s → I (srv.list s path).2)
    (hunlink : ∀ s path st, I s → (srv.stat s path).1 = .ok st → st.nfs_mode &&& S_IFMT ≠ S_IFDIR →
      I (srv.unlink (srv.stat s path).2 path).2)
    (hrmdir : ∀ s path, I s → I (srv.rmdir s path).2) (levels : Nat) (path : Text) (s : RemoveState σ)
    (h : I s.server) : I (removeItem srv levels path s).2.server := by
  have finish (answer : Except POSIXErrorCode Unit × σ) (calls : List RemoveCall) (h : I answer.2) :
      I (finishRemoval answer calls).2.server := by
    obtain ⟨_ | _, _⟩ := answer <;> exact h
  induction levels generalizing path s with
  | zero => exact h
  | succ levels ih =>
    have hs := hstat s.server path h
    rcases heq : srv.stat s.server path with ⟨e | st, server⟩
    · rw [heq] at hs
      simpa only [removeItem, heq] using hs
    · simp only [removeItem, heq]
      split
      · rw [heq] at hs
        have hl := hlist server path hs
        rcases hanswer : srv.list server path with ⟨e | ents, server'⟩
        · rw [hanswer] at hl
          simpa only [removeDirectoryRecursive, hanswer] using hl
        · rw [hanswer] at hl
          rcases hread : readdirAll path ents with _ | items
          · simpa only [removeDirectoryRecursive, hanswer, hread] using hl
          · simp only [removeDirectoryRecursive, hanswer, hread]
            have hloop := removeEntries_preserves ih path items
              (s := ⟨server', s.calls ++ [.stat path] ++ [.list path]⟩) hl
            generalize removeEntries (removeItem srv levels) path items _ = r at hloop
            obtain ⟨_ | e | _ | _, r⟩ := r
            · exact finish _ _ (hrmdir _ _ hloop)
            all_goals exact hloop
      · rename_i hmode
        have hu := hunlink s.server path st h (by rw [heq]) hmode
        rw [heq] at hu
        exact finish _ _ hu

end Preserves

/-! ## The end of the recursion -/

section Finished

variable {remove : Text → RemoveState σ → RemoveOutcome × RemoveState σ} {bound : Nat}

/-- Each name that was taken is a component, and the path that it was taken for has no NUL. -/
def TakesComponents (calls : List RemoveCall) : Prop :=
  ∀ p n f, .removeItem p n f ∈ calls → NulFree p ∧ IsComponent n

/-- The server reports no directory with more than so many components in its path. -/
def BoundedDirectories (srv : Server σ) (bound : Nat) : Prop :=
  ∀ (s : σ) (path : Text) (stat : NfsStat64), (srv.stat s path).1 = .ok stat →
    stat.nfs_mode &&& S_IFMT = S_IFDIR → (byteParts path).length ≤ bound

theorem TakesComponents.of_keeps (h : TakesComponents r.2.calls) (hkeeps : Keeps path s r) :
    TakesComponents s.calls := by
  obtain ⟨new, hcalls, -⟩ := hkeeps
  intro p n f hmem
  exact h p n f (by rw [hcalls]; exact List.mem_append_left _ hmem)

theorem removeEntries_finished (hkeeps : ∀ path s, Keeps path s (remove path s))
    (hfinished : ∀ name s, byteParts (append path name) = byteParts path ++ [utf8 name] →
      TakesComponents (remove (append path name) s).2.calls →
        (remove (append path name) s).1 ≠ .unfinished)
    {items : List Attributes} (hnul : ∀ item ∈ items, NulFree item.nameKey) (s : RemoveState σ)
    (h : TakesComponents (removeEntries remove path items s).2.calls) :
    (removeEntries remove path items s).1 ≠ .unfinished := by
  induction items generalizing s with
  | nil => simp [removeEntries]
  | cons item items ih =>
    obtain ⟨hitem, hitems⟩ := List.forall_mem_cons.mp hnul
    by_cases hname : isRemovable item.nameKey
    · rw [removeEntries_cons items hname] at h ⊢
      have hsub := hkeeps (append path item.nameKey)
        ⟨s.server, s.calls ++ [.removeItem path item.nameKey (append path item.nameKey)]⟩
      have hentry : TakesComponents (remove (append path item.nameKey)
          ⟨s.server, s.calls ++ [.removeItem path item.nameKey (append path item.nameKey)]⟩).2.calls →
          (remove (append path item.nameKey) ⟨s.server, s.calls ++
            [.removeItem path item.nameKey (append path item.nameKey)]⟩).1 ≠ .unfinished := by
        intro hcalls
        obtain ⟨hpath, hcomponent⟩ :=
          hcalls.of_keeps hsub path item.nameKey (append path item.nameKey) (by simp)
        exact hfinished _ _ (byteParts_append hpath hitem hcomponent) hcalls
      generalize remove (append path item.nameKey) _ = r at h hentry ⊢
      dsimp only at h ⊢
      split
      · rename_i hreturned
        rw [if_pos hreturned] at h
        exact ih hitems _ h
      · rename_i hended
        rw [if_neg hended] at h
        exact hentry h
    · rw [removeEntries_skip items hname] at h ⊢
      exact ih hitems s h

theorem removeDirectoryRecursive_finished (hkeeps : ∀ path s, Keeps path s (remove path s))
    (hfinished : ∀ name s, byteParts (append path name) = byteParts path ++ [utf8 name] →
      TakesComponents (remove (append path name) s).2.calls →
        (remove (append path name) s).1 ≠ .unfinished)
    (s : RemoveState σ) (h : TakesComponents (removeDirectoryRecursive srv remove path s).2.calls) :
    (removeDirectoryRecursive srv remove path s).1 ≠ .unfinished := by
  rcases hlist : srv.list s.server path with ⟨e | ents, server⟩
  · simp [removeDirectoryRecursive, hlist]
  · rcases hitems : readdirAll path ents with _ | items
    · simp [removeDirectoryRecursive, hlist, hitems]
    · have hloop := removeEntries_finished hkeeps hfinished (nulFree_of_readdirAll hitems)
        ⟨server, s.calls ++ [.list path]⟩
      rcases hr : removeEntries remove path items ⟨server, s.calls ++ [.list path]⟩ with
        ⟨_ | e | _ | _, s'⟩
      · simp only [removeDirectoryRecursive, hlist, hitems, hr]
        exact finishRemoval_finished _ _
      · simp [removeDirectoryRecursive, hlist, hitems, hr]
      · simp [removeDirectoryRecursive, hlist, hitems, hr]
      · simp only [removeDirectoryRecursive, hlist, hitems, hr] at h hloop ⊢
        exact hloop h

/-- With a level for each component up to the bound, the recursion comes to its end. -/
theorem removeItem_finished (hbound : BoundedDirectories srv bound) (levels : Nat) (path : Text)
    (s : RemoveState σ) (hlevels : bound + 1 - (byteParts path).length < levels)
    (h : TakesComponents (removeItem srv levels path s).2.calls) :
    (removeItem srv levels path s).1 ≠ .unfinished := by
  induction levels generalizing path s with
  | zero => omega
  | succ levels ih =>
    rcases hstat : srv.stat s.server path with ⟨e | stat, server⟩
    · simp [removeItem, hstat]
    · simp only [removeItem, hstat] at h ⊢
      split
      · rename_i hdir
        rw [if_pos hdir] at h
        have hdepth := hbound s.server path stat (by rw [hstat]) hdir
        refine removeDirectoryRecursive_finished (removeItem_keeps srv levels) ?_ _ h
        intro name s hname hcalls
        refine ih _ s ?_ hcalls
        rw [hname, List.length_append, List.length_singleton]
        omega
      · exact finishRemoval_finished _ _

end Finished

/-! ## Confinement -/

/-- A name that is safe to extend a path by. -/
def SafeName (name : Text) : Prop :=
  IsComponent name ∧ NulFree name ∧ name ≠ ['.'] ∧ name ≠ ['.', '.']

/-- The path is `root`, or it is in the textual subtree below. -/
def Below (root path : Text) : Prop :=
  ∃ names : List Text, (∀ n ∈ names, SafeName n) ∧ names.foldl append root = path

/-- What the removal of a tree promises: each recursive call works on its caller's path extended by one
safe name, which is one component more to the server; no call leaves the subtree; and if the server does
not report directories that are too deep, the recursion ends. -/
structure Confined (srv : Server σ) (server : σ) (root : Text) : Prop where
  descends : ∀ levels p n f,
    .removeItem p n f ∈ (removeItem srv levels root ⟨server, []⟩).2.calls →
      Below root p ∧ SafeName n ∧ f = append p n ∧ byteParts f = byteParts p ++ [utf8 n]
  inside : ∀ levels q,
    (.stat q ∈ (removeItem srv levels root ⟨server, []⟩).2.calls ∨
      .list q ∈ (removeItem srv levels root ⟨server, []⟩).2.calls ∨
      .unlink q ∈ (removeItem srv levels root ⟨server, []⟩).2.calls ∨
      .rmdir q ∈ (removeItem srv levels root ⟨server, []⟩).2.calls) → Below root q
  ends : ∀ bound, BoundedDirectories srv bound →
    ∃ levels, (removeItem srv levels root ⟨server, []⟩).1 ≠ .unfinished

theorem safeName_of_taken (h : Taken new name) (htakes : TakesComponents new) : SafeName name := by
  obtain ⟨hname, hnul, p, f, hmem⟩ := h
  have hparts : ['/'] ∉ Characters.characters name ∧ name ≠ ['.'] ∧ name ≠ ['.', '.'] := by
    simpa [isRemovable] using hname
  exact ⟨(htakes p name f hmem).2, hnul, hparts.2⟩

theorem below_of_reached (h : Reached new path q) (htakes : TakesComponents new) : Below path q := by
  obtain ⟨names, hnames, rfl⟩ := h
  exact ⟨names, fun n hn => safeName_of_taken (hnames n hn) htakes, rfl⟩

/-- A directory that lists one entry. Nothing below it is a directory. -/
def oneNameServer (name : List UInt8) : Server Unit where
  stat := fun _ path =>
    (.ok ⟨if (byteParts path).length ≤ 1 then S_IFDIR else S_IFREG, 2, 0, 0, 0, 0, 0, 0, 0, 0, 0⟩, ())
  list := fun _ _ => (.ok [⟨name, NF3DIR, 0, 2, ⟨0, 0⟩, ⟨0, 0⟩, ⟨0, 0⟩⟩], ())
  unlink := fun _ _ => (.ok (), ())
  rmdir := fun _ _ => (.ok (), ())

omit [Characters] in
theorem oneName_bounded (name : List UInt8) : BoundedDirectories (oneNameServer name) 1 := by
  rintro s path stat hstat hdir
  by_contra hlong
  obtain rfl := Except.ok.inj hstat
  rw [if_neg hlong] at hdir
  exact absurd hdir (by decide)

/-- An entry that leads back to its directory. -/
theorem oneName_endless {name : List UInt8} (hname : isRemovable (ofCString name) = true)
    (hback : ∀ path, (byteParts path).length ≤ 1 →
      (byteParts (append path (ofCString name))).length ≤ 1)
    (levels : Nat) (path : Text) (s : RemoveState Unit) (h : (byteParts path).length ≤ 1) :
    (removeItem (oneNameServer name) levels path s).1 = .unfinished := by
  induction levels generalizing path s with
  | zero => rfl
  | succ levels ih =>
    have hstat : (oneNameServer name).stat s.server path
        = (.ok ⟨S_IFDIR, 2, 0, 0, 0, 0, 0, 0, 0, 0, 0⟩, ()) := by
      simp [oneNameServer, h]
    have hlist : (oneNameServer name).list () path
        = (.ok [⟨name, NF3DIR, 0, 2, ⟨0, 0⟩, ⟨0, 0⟩, ⟨0, 0⟩⟩], ()) := rfl
    obtain ⟨item, hitems, hkey⟩ : ∃ item,
        readdirAll path [⟨name, NF3DIR, 0, 2, ⟨0, 0⟩, ⟨0, 0⟩, ⟨0, 0⟩⟩] = some [item] ∧
          item.nameKey = ofCString name := by
      have hlisted : isListed (ofCString name) = true := by
        have hparts := hname
        simp only [isRemovable, decide_eq_true_eq] at hparts
        simpa [isListed] using hparts.2
      simp only [readdirAll, hlisted, if_true]
      exact ⟨_, rfl, rfl⟩
    rw [← hkey] at hname hback
    have hloop : removeEntries (removeItem (oneNameServer name) levels) path [item]
        ⟨(), s.calls ++ [.stat path] ++ [.list path]⟩ = _ := removeEntries_cons [] hname
    have hunfinished := ih (append path item.nameKey)
      ⟨(), s.calls ++ [.stat path] ++ [.list path] ++
        [.removeItem path item.nameKey (append path item.nameKey)]⟩ (hback path h)
    dsimp only at hloop
    rw [hunfinished, if_neg (by decide)] at hloop
    generalize removeItem (oneNameServer name) levels (append path item.nameKey) _ = r
      at hunfinished hloop
    obtain ⟨outcome, s'⟩ := r
    obtain rfl : outcome = .unfinished := hunfinished
    have hdir : S_IFDIR &&& S_IFMT = S_IFDIR := by decide
    simp only [removeItem, hstat, hdir, if_true, removeDirectoryRecursive, hlist, hitems, hloop]

/-- The name `../` with an accent on the slash, and an `x`: the accent is U+0301. -/
def accentName : List UInt8 := [0x2E, 0x2E, 0x2F, 0xCC, 0x81, 0x78]

end NFSKit.NFSClient
