import NFSKit.RemoteTree
import NFSKit.Proofs.AttributesProofs
import NFSKit.Proofs.RemoveItemProofs

/-!
# Proofs: removing a remote tree

`removeItem(atPath:)` asks `stat` what a path is, and `stat` follows links. So it takes a link to a
directory for the directory, and a link that leads nowhere is an error to it. The subtree is removed, and
nothing else, if and only if no link of the subtree is of these kinds when its turn comes.
-/

namespace NFSKit.RemoteTree

open Checked Paths Utf8 NFSEventLoop NFSClient FileTree

variable {t t' u : RemoteTree} {p q : Location} {n : List UInt8} {path : Text} {hops levels bound : Nat}
  {k : NodeKind (List UInt8)} {s : Remote}

/-! ## The tree -/

theorem eraseAll_toFileTree (t : RemoteTree) (p : Location) (names : List (List UInt8)) :
    (t.eraseAll p names).toFileTree = t.toFileTree.eraseAll p names := by
  induction names generalizing t with
  | nil => rfl
  | cons n names ih => exact ih (t.erase (p ++ [n]))

theorem eraseAll_concat (t : RemoteTree) (p : Location) (names : List (List UInt8)) (n : List UInt8) :
    t.eraseAll p (names ++ [n]) = (t.eraseAll p names).erase (p ++ [n]) := by
  simp [RemoteTree.eraseAll, List.foldl_append]

theorem mem_eraseAll' {names : List (List UInt8)} {x : TreeEntry (List UInt8) RemoteObject} :
    x ∈ (t.eraseAll p names).entries ↔ x ∈ t.entries ∧ ∀ n ∈ names, ¬ p ++ [n] <+: x.location := by
  have h : (t.eraseAll p names).entries = (t.toFileTree.eraseAll p names).entries :=
    congrArg FileTree.entries (eraseAll_toFileTree t p names)
  rw [h]
  exact FileTree.mem_eraseAll

theorem sub_eraseAll' (t : RemoteTree) (p : Location) (names : List (List UInt8)) :
    Sub (t.eraseAll p names).toFileTree t.toFileTree := fun _ hx => (mem_eraseAll'.mp hx).1

theorem sub_turn (t : RemoteTree) (p rest : Location) : Sub (t.turn p rest).toFileTree t.toFileTree := by
  induction rest generalizing t p with
  | nil => exact Sub.refl _
  | cons n rest ih => exact (ih _ _).trans (sub_eraseAll' t p _)

theorem ext_entries (h : t.entries = t'.entries) (hroot : t.root = t'.root) : t = t' := by
  obtain ⟨⟨_, _, _, _⟩, _, _, _, _⟩ := t
  obtain ⟨⟨_, _, _, _⟩, _, _, _, _⟩ := t'
  obtain rfl : _ = _ := h
  obtain rfl : _ = _ := hroot
  rfl

theorem isFileName_of_kindAt (h : t.kindAt (p ++ [n]) = some k) : IsFileName n := by
  obtain ⟨x, hx, hloc, -⟩ := (kindAt_eq_some (by simp)).mp h
  exact t.safe x hx n (by rw [hloc]; simp)

/-- The object at a location is a directory if the entry is one. -/
theorem objectAt_of_kindAt (h : t.kindAt p = some k) :
    ∃ o, t.objectAt p = some o ∧ (o.kind = .directory ↔ k = .directory) := by
  unfold objectAt
  by_cases hp : p = []
  · rw [if_pos hp]
    rw [hp, kindAt_nil] at h
    cases h
    exact ⟨t.root, rfl, by simp [t.root_kind]⟩
  · rw [if_neg hp]
    rw [kindAt, if_neg hp] at h
    obtain ⟨x, hx, rfl⟩ := Option.map_eq_some_iff.mp h
    refine ⟨x.data, by rw [hx]; rfl, ?_⟩
    exact (t.kinds x (List.mem_of_find?_eq_some hx)).1.symm

/-! ## Names as texts -/

/-- A name of the tree is read as one component. -/
theorem isComponent_of_isFileName (h : IsFileName n) : IsComponent (ofCString n) := by
  rw [ofCString_eq h.2.2.1]
  refine ⟨fun hnil => h.1 (repair_eq_nil hnil), fun hslash => h.2.1 ?_⟩
  exact mem_of_mem_repair (by decide) hslash

theorem isListed_of_isFileName (h : IsFileName n) : isListed (ofCString n) = true := by
  rw [ofCString_eq h.2.2.1]
  have hdot : repair n ≠ ['.'] := by
    intro heq
    exact h.2.2.2.1 (utf8_of_repair heq (by simp)).symm
  have hdots : repair n ≠ ['.', '.'] := by
    intro heq
    exact h.2.2.2.2 (utf8_of_repair heq (by simp)).symm
  simp [isListed, hdot, hdots]

/-! ## What the server answers -/

theorem stat_of_none (h : t.resolve true hops (locationOf path) = none) :
    t.stat hops path = .error .ENOENT := by
  simp [RemoteTree.stat, h]

theorem stat_of_some (h : t.resolve true hops (locationOf path) = some p) :
    ∃ st, t.stat hops path = .ok st ∧
      (st.nfs_mode &&& S_IFMT = S_IFDIR ↔ t.kindAt p = some .directory) := by
  obtain ⟨k, hk, -⟩ := resolve_kind h
  obtain ⟨o, ho, hkind⟩ := objectAt_of_kindAt hk
  refine ⟨o.stat, by simp [RemoteTree.stat, h, ho], ?_⟩
  rw [modeBits_and, hk, Option.some.injEq, ← hkind]
  cases o.kind <;> decide

/-- No call fails any more. -/
def Calm (s : Remote) : Prop := ∀ x ∈ s.faults, x = none

/-- A call fails without an effect, or it does what the tree answers. -/
theorem answer_cases {α : Type} (s : Remote) (reply : Except POSIXErrorCode α × RemoteTree) :
    ∃ faults, (Calm s → Calm ⟨reply.2, faults⟩) ∧
      ((¬ Calm s ∧ ∃ e, s.answer reply = (.error e, ⟨s.tree, faults⟩)) ∨
        s.answer reply = (reply.1, ⟨reply.2, faults⟩)) := by
  obtain ⟨tree, _ | ⟨_ | e, faults⟩⟩ := s
  · exact ⟨[], fun h => h, .inr rfl⟩
  · exact ⟨faults, fun h x hx => h x (List.mem_cons_of_mem _ hx), .inr rfl⟩
  · refine ⟨faults, fun h x hx => h x (List.mem_cons_of_mem _ hx), .inl ⟨fun h => ?_, e, rfl⟩⟩
    cases h (some e) (List.mem_cons_self ..)

theorem list_of_directory (hres : t.resolve true hops (locationOf path) = some p)
    (hdir : t.kindAt p = some .directory) :
    ∃ ents, t.list hops path = .ok ents ∧
      ents.filter (fun ent => isListed (ofCString ent.name)) =
        (t.children p).map fun x => x.2.dirent x.1 := by
  unfold RemoteTree.list
  rw [hres]
  dsimp only
  rw [if_pos hdir]
  refine ⟨_, rfl, ?_⟩
  have hdot (o : RemoteObject) : isListed (ofCString (o.dirent [0x2E]).name) = false := rfl
  have hdots (o : RemoteObject) : isListed (ofCString (o.dirent [0x2E, 0x2E]).name) = false := rfl
  rw [List.filter_cons, List.filter_cons, hdot, hdots]
  simp only [Bool.false_eq_true, if_false]
  refine List.filter_eq_self.mpr fun ent hent => ?_
  obtain ⟨x, hx, rfl⟩ := List.mem_map.mp hent
  obtain ⟨e, he, hloc, -⟩ := FileTree.mem_children.mp hx
  exact isListed_of_isFileName (t.safe e he x.1 (by rw [hloc]; simp))

/-- Partial functions that are defined on a whole list. -/
theorem exists_map_some {α β : Type} (f : α → Option β) (l : List α) :
    (∃ l' : List β, l.map f = l'.map some) ↔ ∀ x ∈ l, (f x).isSome := by
  induction l with
  | nil => exact ⟨fun _ => by simp, fun _ => ⟨[], rfl⟩⟩
  | cons a l ih =>
    rw [List.forall_mem_cons, ← ih]
    constructor
    · rintro ⟨l', h⟩
      cases l' with
      | nil => cases h
      | cons b l' =>
        obtain ⟨hhead, htail⟩ := List.cons.inj h
        exact ⟨by simp [hhead], l', htail⟩
    · rintro ⟨ha, l', h⟩
      obtain ⟨b, hb⟩ := Option.isSome_iff_exists.mp ha
      exact ⟨b :: l', by rw [List.map_cons, List.map_cons, hb, h]⟩

/-! ## What a run leaves -/

/-- A part of the tree is left, with everything that is not strictly below `p`. -/
def Kept (p : Location) (t u : RemoteTree) : Prop :=
  Sub u.toFileTree t.toFileTree ∧ ∀ x ∈ t.entries, ¬ Below p x.location → x ∈ u.entries

theorem Kept.refl (p : Location) (t : RemoteTree) : Kept p t t := ⟨Sub.refl _, fun _ hx _ => hx⟩

theorem below_of_concat (h : p ++ [n] <+: q) : Below p q := by
  refine ⟨(List.prefix_append _ _).trans h, fun heq => ?_⟩
  have hle := h.length_le
  rw [heq, List.length_append, List.length_singleton] at hle
  omega

theorem Kept.kindAt (h : Kept p t u) (hq : ¬ Below p q) : u.kindAt q = t.kindAt q := by
  by_cases hnil : q = []
  · rw [hnil, kindAt_nil, kindAt_nil]
  refine Option.ext fun k => ⟨h.1.kindAt, fun hk => ?_⟩
  obtain ⟨x, hx, hloc, hkind⟩ := (kindAt_eq_some hnil).mp hk
  exact (kindAt_eq_some hnil).mpr ⟨x, h.2 x hx (hloc ▸ hq), hloc, hkind⟩

theorem kept_eraseAll (t : RemoteTree) (p : Location) (names : List (List UInt8)) :
    Kept p t (t.eraseAll p names) := by
  refine ⟨sub_eraseAll' t p names, fun x hx hout => ?_⟩
  exact mem_eraseAll'.mpr ⟨hx, fun n _ hpre => hout (below_of_concat hpre)⟩

/-- What is kept of a child's subtree is kept of the directory. -/
theorem Kept.child (h : Kept p t u) (hchild : Kept (p ++ [n]) u t') : Kept p t t' := by
  refine ⟨hchild.1.trans h.1, fun x hx hout => ?_⟩
  exact hchild.2 x (h.2 x hx hout) fun hbelow => hout (below_of_concat hbelow.1)

/-- How a run ends that is to leave the tree `left`: so it does; or the levels do not suffice; or a call
has failed. -/
inductive Removal (bound : Nat) (p : Location) (t left : RemoteTree) (s : Remote) (levels : Nat) :
    RemoveOutcome × RemoveState Remote → Prop where
  | done {r : RemoveState Remote} (htree : r.server.tree = left) (hcalm : Calm s → Calm r.server) :
      Removal bound p t left s levels (.returned, r)
  | unfinished {r : RemoveState Remote} (hkept : Kept p t r.server.tree)
      (hlevels : p.length + levels ≤ bound) : Removal bound p t left s levels (.unfinished, r)
  | failed {r : RemoveState Remote} {e : POSIXErrorCode} (hkept : Kept p t r.server.tree)
      (hfault : ¬ Calm s) : Removal bound p t left s levels (.threw e, r)

variable {left : RemoteTree} {s' : Remote} {r : RemoveOutcome × RemoveState Remote}
  {calls : List RemoveCall} {remove : Text → RemoveState Remote → RemoveOutcome × RemoveState Remote}

theorem Removal.of_calm (h : Removal bound p t left s' levels r) (hcalm : Calm s → Calm s') :
    Removal bound p t left s levels r := by
  cases h with
  | done htree hcalm' => exact .done htree fun h => hcalm' (hcalm h)
  | unfinished hkept hlevels => exact .unfinished hkept hlevels
  | failed hkept hfault => exact .failed hkept fun h => hfault (hcalm h)

/-- What is to be left does not matter to a run that does not return. -/
theorem Removal.of_not_returned (left' : RemoteTree) (h : Removal bound p t left s levels r)
    (hne : r.1 ≠ .returned) : Removal bound p t left' s levels r := by
  cases h with
  | done => exact absurd rfl hne
  | unfinished hkept hlevels => exact .unfinished hkept hlevels
  | failed hkept hfault => exact .failed hkept hfault

/-- The last call removes what is to be removed, or it fails. -/
theorem finishRemoval_removal (hkept : Kept p t s'.tree) (hcalm : Calm s → Calm s') :
    Removal bound p t left s levels (finishRemoval (s'.answer (.ok (), left)) calls) := by
  obtain ⟨faults, hfaults, ⟨hfault, e, heq⟩ | heq⟩ := answer_cases s' (.ok (), left)
  · rw [heq]
    exact .failed hkept fun h => hfault (hcalm h)
  · rw [heq]
    refine .done rfl fun h => hfaults ?_
    exact hcalm h

theorem exists_bound (t : RemoteTree) : ∃ bound, ∀ x ∈ t.entries, x.location.length ≤ bound := by
  induction t.entries with
  | nil => exact ⟨0, by simp⟩
  | cons e l ih =>
    obtain ⟨bound, hbound⟩ := ih
    refine ⟨max e.location.length bound, fun x hx => ?_⟩
    rcases List.mem_cons.mp hx with rfl | hx
    · exact Nat.le_max_left _ _
    · exact (hbound x hx).trans (Nat.le_max_right _ _)

/-- What is known of a run that is right: what is outside stays; it is cut off only for lack of levels;
and if no call fails, nothing of the subtree is left. -/
structure Right (bound levels : Nat) (t : RemoteTree) (inside : Location → Prop) (s : Remote)
    (r : RemoveOutcome × RemoveState Remote) : Prop where
  kept : ∀ x ∈ t.entries, ¬ inside x.location → x ∈ r.2.server.tree.entries
  unfinished : r.1 = .unfinished → levels ≤ bound
  trapped : r.1 ≠ .trapped
  gone : Calm s → r.1 ≠ .unfinished → ∀ x ∈ r.2.server.tree.entries, ¬ inside x.location

/-- A call fails, or there is nothing to be removed. -/
theorem Right.threw {inside : Location → Prop} {e : POSIXErrorCode} {r : RemoveState Remote}
    (htree : r.server.tree = t) (hgone : Calm s → ∀ x ∈ t.entries, ¬ inside x.location) :
    Right bound levels t inside s (.threw e, r) where
  kept := fun x hx _ => htree ▸ hx
  unfinished := fun h => by cases h
  trapped := by simp
  gone := fun hcalm _ => htree ▸ hgone hcalm

/-- A run of `removeItem` below the root is right. -/
theorem Removal.right (h : Removal bound p t (t.erase p) s levels r) :
    Right bound levels t (p <+: ·) s r := by
  cases h with
  | done htree =>
    refine ⟨fun x hx hout => ?_, by simp, by simp, fun _ _ x hx => ?_⟩
    · rw [htree]
      exact FileTree.mem_erase.mpr ⟨hx, hout⟩
    · rw [htree] at hx
      exact (FileTree.mem_erase.mp hx).2
  | unfinished hkept hlevels =>
    exact ⟨fun x hx hout => hkept.2 x hx fun hbelow => hout hbelow.1, fun _ => by omega, by simp,
      fun _ hne => absurd rfl hne⟩
  | failed hkept hfault =>
    exact ⟨fun x hx hout => hkept.2 x hx fun hbelow => hout hbelow.1, by simp, by simp,
      fun hcalm => absurd hcalm hfault⟩

/-! ## What can be removed -/

/-- No link below a directory that can be removed leads to a directory. -/
theorem Removable.not_leadsToDirectory (h : Removable hops t path p)
    (hdir : t.kindAt p = some .directory) (hres : t.resolve true hops (locationOf path) = some p)
    {z : Location} (hz : Below p z) : ¬ t.LeadsToDirectory z := by
  rintro ⟨target, hops', d, hk, hd, hdkind⟩
  obtain ⟨⟨rest, rfl⟩, hne⟩ := hz
  have hrest : rest ≠ [] := fun hnil => hne (by rw [hnil, List.append_nil])
  obtain ⟨r, hr, hrkind⟩ := h.links rest target hk
  have hsub := sub_turn t p rest
  -- the path of the link leads to the link, in the tree at its turn as well
  obtain ⟨z, hz⟩ := resolve_exists hr
  have hwhole := resolve_append hdir hk hrest hres
  obtain rfl := resolve_unique hsub (Sub.refl _) hz hwhole
  obtain ⟨k', hk', -⟩ := resolve_kind hz
  have hlink := hsub.kindAt hk'
  rw [hk] at hlink
  obtain rfl := Option.some.inj hlink
  obtain ⟨hops'', htarget⟩ := resolve_link hk' hz hr
  obtain rfl := resolve_unique hsub (Sub.refl _) htarget hd
  obtain ⟨k'', hk'', -⟩ := resolve_kind hr
  have hdir' := hsub.kindAt hk''
  rw [hdkind] at hdir'
  obtain rfl := Option.some.inj hdir'
  exact hrkind hk''

/-- What can be removed is found, and taken for a directory only if it is one. -/
theorem Removable.follow (h : Removable hops t path p) (hk : t.kindAt p = some k)
    (hres : t.resolve false hops (locationOf path) = some p) :
    ∃ q, t.resolve true hops (locationOf path) = some q ∧
      (t.kindAt q = some .directory ↔ k = .directory) := by
  cases k with
  | leaf => exact ⟨p, resolve_follow (fun target => by simp [hk]) hres, by simp [hk]⟩
  | directory => exact ⟨p, resolve_follow (fun target => by simp [hk]) hres, by simp [hk]⟩
  | link target =>
    obtain ⟨q, hq, hkind⟩ := h.links [] target (by rwa [List.append_nil])
    rw [List.append_nil] at hq
    exact ⟨q, hq, iff_of_false hkind (by simp)⟩

/-- No entry is listed twice. -/
theorem not_listed_before {done names : List (List UInt8)} (hnames : t.names p = done ++ n :: names) :
    n ∉ done := by
  have hnodup := t.names_nodup p
  rw [hnames] at hnodup
  intro hdone
  exact (List.nodup_append.mp hnodup).2.2 n hdone n (List.mem_cons_self ..) rfl

theorem turn_cons {done names : List (List UInt8)} (hnames : t.names p = done ++ n :: names)
    (rest : Location) : t.turn p (n :: rest) = (t.eraseAll p done).turn (p ++ [n]) rest := by
  have htake : (t.names p).takeWhile (· ≠ n) = done := by
    rw [hnames, List.takeWhile_append_of_pos, List.takeWhile_cons_of_neg (by simp), List.append_nil]
    intro m hm
    exact decide_eq_true fun heq => not_listed_before hnames (heq ▸ hm)
  rw [turn, htake]

/-- What has something to list has no NUL in its path. -/
theorem Readable.nulFree (h : Readable t path p) (hn : n ∈ t.names p) : NulFree path := by
  by_contra hnul
  rw [h.nul hnul] at hn
  cases hn

/-- The names that are listed are found by their texts. -/
theorem Readable.wellFormed (h : Readable t path p) (hn : n ∈ t.names p) : IsWellFormed n := by
  obtain ⟨k, hk⟩ := FileTree.mem_names.mp hn
  exact h.names [n] k hk n (List.mem_singleton_self n)

/-- What is at or below an entry is not at or below another one. -/
theorem not_below_others {names rest : List (List UInt8)} (hn : n ∉ names) :
    ∀ m ∈ names, ¬ p ++ [m] <+: p ++ n :: rest := by
  intro m hm hpre
  rw [List.prefix_append_right_inj, List.cons_prefix_cons] at hpre
  exact hn (hpre.1 ▸ hm)

/-- An entry is there as long as its name has not been erased. -/
theorem kindAt_eraseAll {names : List (List UInt8)} (hn : n ∉ names) (rest : Location) :
    (t.eraseAll p names).kindAt (p ++ n :: rest) = t.kindAt (p ++ n :: rest) := by
  refine Option.ext fun k => ⟨(sub_eraseAll' t p names).kindAt, fun hk => ?_⟩
  obtain ⟨x, hx, hloc, hkind⟩ := (kindAt_eq_some (by simp)).mp hk
  refine (kindAt_eq_some (by simp)).mpr ⟨x, mem_eraseAll'.mpr ⟨hx, ?_⟩, hloc, hkind⟩
  rw [hloc]
  exact not_below_others hn

theorem erase_erase_child (t : RemoteTree) (p : Location) (n : List UInt8) :
    (t.erase (p ++ [n])).erase p = t.erase p := by
  refine ext_entries ?_ rfl
  refine (List.filter_filter ..).trans (List.filter_congr fun x _ => ?_)
  by_cases hpre : p <+: x.location
  · simp [hpre]
  · have hchild : ¬ p ++ [n] <+: x.location := fun h => hpre ((List.prefix_append _ _).trans h)
    simp [hpre, hchild]

theorem erase_eraseAll (t : RemoteTree) (p : Location) (names : List (List UInt8)) :
    (t.eraseAll p names).erase p = t.erase p := by
  induction names generalizing t with
  | nil => rfl
  | cons n names ih => exact (ih (t.erase (p ++ [n]))).trans (erase_erase_child t p n)

/-- Of a directory whose entries are erased, nothing is left to list. -/
theorem names_eraseAll (t : RemoteTree) (p : Location) :
    (t.eraseAll p (t.names p)).names p = [] := by
  refine List.eq_nil_iff_forall_not_mem.mpr fun n hn => ?_
  obtain ⟨k, hk⟩ := FileTree.mem_names.mp hn
  obtain ⟨x, hx, hloc, -⟩ := (kindAt_eq_some (by simp)).mp hk
  obtain ⟨hx, hgone⟩ := mem_eraseAll'.mp hx
  refine hgone n ?_ (by rw [hloc])
  exact FileTree.mem_names.mpr ⟨x.kind, hloc ▸ kindAt_of_mem hx⟩

theorem size_of_children (h : Removable hops t path p) :
    ∀ x ∈ t.children p, x.2.size < 2 ^ 63 := by
  intro x hx
  obtain ⟨e, he, hloc, hdata⟩ := FileTree.mem_children.mp hx
  rw [← hdata]
  exact h.sizes e he (below_of_concat (by rw [hloc]))

theorem entries_eraseAll_root (t : RemoteTree) : (t.eraseAll [] (t.names [])).entries = [] := by
  refine List.eq_nil_iff_forall_not_mem.mpr fun x hx => ?_
  obtain ⟨hx, hgone⟩ := mem_eraseAll'.mp hx
  have hk := kindAt_of_mem hx
  cases hloc : x.location with
  | nil => exact t.located x hx hloc
  | cons m rest =>
    rw [hloc] at hk hgone
    exact hgone m (mem_names_of_kindAt (p := []) hk) ⟨rest, rfl⟩

/-! ## The entries of a directory -/

variable [Characters]

/-- A name that is the encoding of a text is found by the text. -/
theorem locationOf_append (h : IsFileName n) (hn : IsWellFormed n) (hpath : NulFree path) :
    locationOf (append path (ofCString n)) = locationOf path ++ [n] := by
  have hutf8 : utf8 (ofCString n) = n := by
    rw [ofCString_eq h.2.2.1]
    exact hn
  unfold locationOf
  rw [byteParts_append hpath (nul_not_mem_ofCString n) (isComponent_of_isFileName h), List.foldl_append,
    hutf8]
  simp [h.2.2.2.1, h.2.2.2.2]

theorem entryAttributes_object_isSome (o : RemoteObject) (path : Text) (name : List UInt8) :
    (entryAttributes path (o.dirent name)).isSome ↔ o.size < 2 ^ 63 := by
  have hmtime : timevalDate (o.dirent name).mtime = _ := timevalDate_eq o.mtime
  have hatime : timevalDate (o.dirent name).atime = _ := timevalDate_eq o.atime
  have hctime : timevalDate (o.dirent name).ctime = _ := timevalDate_eq o.ctime
  have hsize : (IntType.int64.convert (o.dirent name).size).isSome ↔ o.size < 2 ^ 63 :=
    IntType.convert_isSome.trans fits_int64_iff
  rw [← hsize]
  cases h : IntType.int64.convert (o.dirent name).size with
  | none => simp [entryAttributes, h]
  | some size => simp [entryAttributes, h, hmtime, hatime, hctime]

/-- What a listing of a directory becomes: an item for each entry, if all sizes fit. -/
theorem readdirAll_children {ents : List Nfsdirent}
    (hents : ents.filter (fun ent => isListed (ofCString ent.name)) =
      (t.children p).map fun x => x.2.dirent x.1) :
    ((readdirAll path ents).isSome ↔ ∀ x ∈ t.children p, x.2.size < 2 ^ 63) ∧
      ∀ items, readdirAll path ents = some items →
        items.map Attributes.nameKey = (t.names p).map ofCString := by
  refine ⟨?_, fun items hitems => ?_⟩
  · rw [Option.isSome_iff_exists]
    simp only [readdirAll_eq_some, hents]
    rw [exists_map_some, List.forall_mem_map]
    simp only [entryAttributes_object_isSome]
  · rw [readdirAll_eq_some, hents, List.map_map] at hitems
    unfold FileTree.names
    generalize t.children p = l at hitems
    induction l generalizing items with
    | nil =>
      cases items with
      | nil => rfl
      | cons item items => cases hitems
    | cons x l ih =>
      cases items with
      | nil => cases hitems
      | cons item items =>
        obtain ⟨hhead, htail⟩ := List.cons.inj hitems
        obtain ⟨size, -, rfl⟩ := entryAttributes_object hhead
        rw [List.map_cons, List.map_cons, ih items htail]
        rfl

theorem isRemovable_of_isFileName (h : IsFileName n) : isRemovable (ofCString n) = true := by
  have hslash : ['/'] ∉ Characters.characters (ofCString n) :=
    fun hmem => (isComponent_of_isFileName h).2 (Characters.mem_of_singleton hmem)
  have hlisted : ofCString n ≠ ['.'] ∧ ofCString n ≠ ['.', '.'] := by
    simpa [isListed] using isListed_of_isFileName h
  simpa [isRemovable] using ⟨hslash, hlisted⟩

/-- `remove` removes the subtrees that can be removed. -/
def Removes (hops bound levels : Nat)
    (remove : Text → RemoveState Remote → RemoveOutcome × RemoveState Remote) : Prop :=
  ∀ (s : Remote) (calls : List RemoveCall) (path : Text) (p : Location) (k : NodeKind (List UInt8)),
    (∀ x ∈ s.tree.entries, x.location.length ≤ bound) → p ≠ [] → s.tree.kindAt p = some k →
      s.tree.resolve false hops (locationOf path) = some p → Removable hops s.tree path p →
        Removal bound p s.tree (s.tree.erase p) s levels (remove path ⟨s, calls⟩)

/-- What is left of an entry's subtree is readable too. -/
theorem Readable.child (h : Readable t path p) (hn : n ∈ t.names p)
    (hsub : Sub u.toFileTree t.toFileTree) : Readable u (append path (ofCString n)) (p ++ [n]) where
  names := by
    intro rest k hk m hm
    have hk := hsub.kindAt hk
    rw [List.append_assoc] at hk
    exact h.names ([n] ++ rest) k hk m (List.mem_append_right _ hm)
  nul := by
    intro hnul
    exact absurd (nulFree_append (h.nulFree hn) (nul_not_mem_ofCString n)) hnul

theorem Readable.locationOf_append (h : Readable t path p) (hn : n ∈ t.names p) :
    locationOf (append path (ofCString n)) = locationOf path ++ [n] := by
  obtain ⟨k, hk⟩ := FileTree.mem_names.mp hn
  exact RemoteTree.locationOf_append (isFileName_of_kindAt hk) (h.wellFormed hn) (h.nulFree hn)

/-- When the turn of an entry comes, its subtree can be removed. -/
theorem Removable.child {done names : List (List UInt8)} (h : Removable hops t path p)
    (hnames : t.names p = done ++ n :: names) :
    Removable hops (t.eraseAll p done) (append path (ofCString n)) (p ++ [n]) where
  toReadable := h.toReadable.child (by simp [hnames]) (sub_eraseAll' t p done)
  links := by
    intro rest target hk
    have hsplit (l : Location) : l ++ n :: rest = l ++ [n] ++ rest := by simp
    obtain ⟨r, hr, hrkind⟩ := h.links (n :: rest) target (by
      rw [hsplit]
      exact (sub_eraseAll' t p done).kindAt hk)
    rw [turn_cons hnames] at hr hrkind
    rw [h.toReadable.locationOf_append (by simp [hnames]), ← hsplit]
    exact ⟨r, hr, hrkind⟩
  sizes := fun x hx hbelow =>
    h.sizes x (mem_eraseAll'.mp hx).1 (below_of_concat hbelow.1)

/-- The paths of the directory and of an entry whose turn it is. -/
theorem Removable.resolve_child {done : List (List UInt8)} (h : Removable hops t path p)
    (hdir : t.kindAt p = some .directory) (hres : t.resolve false hops (locationOf path) = some p)
    (hk : (t.eraseAll p done).kindAt (p ++ [n]) = some k) :
    (t.eraseAll p done).resolve false hops (locationOf (append path (ofCString n))) =
      some (p ++ [n]) := by
  have hn : n ∈ t.names p := FileTree.mem_names.mpr ⟨k, (sub_eraseAll' t p done).kindAt hk⟩
  have hnolink (target : Location) : t.kindAt p ≠ some (.link target) := by simp [hdir]
  have hres' : t.resolve true hops (locationOf path) = some p := resolve_follow hnolink hres
  have hkept := kept_eraseAll t p done
  have hhere : (t.eraseAll p done).resolve false hops (locationOf path) = some p :=
    resolve_outside (fun q hq => hkept.kindAt hq)
      (fun z hz => h.not_leadsToDirectory hdir hres' hz) hres
  have hdir' : (t.eraseAll p done).kindAt p = some .directory :=
    (hkept.kindAt fun hbelow => hbelow.2 rfl).trans hdir
  rw [h.toReadable.locationOf_append hn]
  exact resolve_concat hdir' hk (fun _ _ => rfl)
    (resolve_follow (fun target => by simp [hdir']) hhere)

/-- An entry of the tree is not passed over. -/
theorem removeEntries_entry {r : RemoveState Remote} {item : Attributes}
    (hk : t.kindAt (p ++ [n]) = some k) (hkey : item.nameKey = ofCString n) (items : List Attributes) :
    removeEntries remove path (item :: items) r =
      let r' := remove (append path (ofCString n))
        ⟨r.server, r.calls ++ [.removeItem path (ofCString n) (append path (ofCString n))]⟩
      if r'.1 = .returned then removeEntries remove path items r'.2 else r' := by
  have hremovable : isRemovable item.nameKey = true := by
    rw [hkey]
    exact isRemovable_of_isFileName (isFileName_of_kindAt hk)
  rw [removeEntries_cons items hremovable, hkey]

/-- The loop over the entries of a directory that can be removed. -/
theorem removeEntries_removal (hremove : Removes hops bound levels remove)
    (hbound : ∀ x ∈ t.entries, x.location.length ≤ bound) (hdir : t.kindAt p = some .directory)
    (hres : t.resolve false hops (locationOf path) = some p) (hrem : Removable hops t path p)
    {items : List Attributes} {names : List (List UInt8)}
    (hitems : items.map Attributes.nameKey = names.map ofCString) (done : List (List UInt8))
    (hnames : t.names p = done ++ names) (htree : s.tree = t.eraseAll p done)
    (calls : List RemoveCall) :
    Removal bound p t (t.eraseAll p (t.names p)) s (levels + 1)
      (removeEntries remove path items ⟨s, calls⟩) := by
  induction names generalizing items done s calls with
  | nil =>
    obtain rfl : items = [] := List.map_eq_nil_iff.mp hitems
    rw [List.append_nil] at hnames
    rw [hnames]
    exact .done htree fun h => h
  | cons n names ih =>
    obtain ⟨item, items, rfl, hkey, hitems⟩ := List.map_eq_cons_iff.mp hitems
    have hmem : n ∈ t.names p := by simp [hnames]
    obtain ⟨k, hk⟩ := FileTree.mem_names.mp hmem
    have hk' : (t.eraseAll p done).kindAt (p ++ [n]) = some k :=
      (kindAt_eraseAll (not_listed_before hnames) []).trans hk
    rw [removeEntries_entry hk hkey]
    have hentry := hremove s (calls ++ [.removeItem path (ofCString n) (append path (ofCString n))])
      (append path (ofCString n)) (p ++ [n]) k
      (by rw [htree]; exact fun x hx => hbound x (mem_eraseAll'.mp hx).1) (by simp)
      (by rw [htree]; exact hk') (by rw [htree]; exact hrem.resolve_child hdir hres hk')
      (by rw [htree]; exact hrem.child hnames)
    have hkept : Kept p t s.tree := htree ▸ kept_eraseAll t p done
    dsimp only
    generalize remove (append path (ofCString n)) _ = r at hentry
    cases hentry with
    | @done r htree' hcalm =>
      rw [if_pos rfl]
      refine (ih (s := r.server) hitems (done ++ [n]) ?_ ?_ _).of_calm hcalm
      · rw [hnames]
        simp
      · rw [htree', htree, eraseAll_concat]
    | unfinished hkept' hlevels =>
      rw [if_neg (by simp)]
      refine .unfinished (hkept.child hkept') ?_
      rw [List.length_append, List.length_singleton] at hlevels
      omega
    | failed hkept' hfault =>
      rw [if_neg (by simp)]
      exact .failed (hkept.child hkept') hfault

/-! ## One directory -/

/-- How `removeDirectoryRecursive` goes: the listing fails or traps, or the loop runs over the entries
and the directory itself is removed last. -/
theorem removeDirectory_cases
    (remove : Text → RemoveState Remote → RemoveOutcome × RemoveState Remote)
    (hres : s.tree.resolve true hops (locationOf path) = some p)
    (hdir : s.tree.kindAt p = some .directory) (calls : List RemoveCall) :
    (¬ Calm s ∧ ∃ e r, removeDirectoryRecursive (remoteServer hops) remove path ⟨s, calls⟩ =
      (.threw e, r) ∧ r.server.tree = s.tree) ∨
    ((¬ ∀ x ∈ s.tree.children p, x.2.size < 2 ^ 63) ∧
      ∃ r, removeDirectoryRecursive (remoteServer hops) remove path ⟨s, calls⟩ = (.trapped, r) ∧
        r.server.tree = s.tree) ∨
    ∃ items s' calls', items.map Attributes.nameKey = (s.tree.names p).map ofCString ∧
      (∀ x ∈ s.tree.children p, x.2.size < 2 ^ 63) ∧ s'.tree = s.tree ∧ (Calm s → Calm s') ∧
      removeDirectoryRecursive (remoteServer hops) remove path ⟨s, calls⟩ =
        if (removeEntries remove path items ⟨s', calls'⟩).1 = .returned then
          finishRemoval ((remoteServer hops).rmdir
            (removeEntries remove path items ⟨s', calls'⟩).2.server path)
            ((removeEntries remove path items ⟨s', calls'⟩).2.calls ++ [.rmdir path])
        else removeEntries remove path items ⟨s', calls'⟩ := by
  obtain ⟨ents, hlist, hents⟩ := list_of_directory hres hdir
  obtain ⟨hsome, hitems⟩ : _ ∧ ∀ items, readdirAll path ents = some items →
      items.map Attributes.nameKey = (s.tree.names p).map ofCString := readdirAll_children hents
  obtain ⟨faults, hfaults, ⟨hfault, e, heq⟩ | heq⟩ := answer_cases s (s.tree.list hops path, s.tree)
  · have heq : (remoteServer hops).list s path = (.error e, ⟨s.tree, faults⟩) := heq
    refine .inl ⟨hfault, e, ⟨⟨s.tree, faults⟩, calls ++ [.list path]⟩, ?_, rfl⟩
    simp only [removeDirectoryRecursive, heq]
  · have heq : (remoteServer hops).list s path = (.ok ents, ⟨s.tree, faults⟩) := by
      rw [← hlist]
      exact heq
    by_cases hsizes : ∀ x ∈ s.tree.children p, x.2.size < 2 ^ 63
    · obtain ⟨items, hread⟩ := Option.isSome_iff_exists.mp (hsome.mpr hsizes)
      refine .inr (.inr ⟨items, ⟨s.tree, faults⟩, calls ++ [.list path], hitems items hread, hsizes,
        rfl, hfaults, ?_⟩)
      simp only [removeDirectoryRecursive, heq, hread]
      generalize removeEntries remove path items _ = r
      obtain ⟨_ | _ | _ | _, r⟩ := r <;> rfl
    · have hread : readdirAll path ents = none := by
        rw [← Option.not_isSome_iff_eq_none, hsome]
        exact hsizes
      refine .inr (.inl ⟨hsizes, ⟨⟨s.tree, faults⟩, calls ++ [.list path]⟩, ?_, rfl⟩)
      simp only [removeDirectoryRecursive, heq, hread]

/-- A directory that can be removed, up to its own removal. -/
theorem removeDirectory_loop (hremove : Removes hops bound levels remove)
    (hbound : ∀ x ∈ s.tree.entries, x.location.length ≤ bound)
    (hdir : s.tree.kindAt p = some .directory)
    (hres : s.tree.resolve false hops (locationOf path) = some p) (hrem : Removable hops s.tree path p)
    (calls : List RemoveCall) :
    (∃ s' calls', s'.tree = s.tree.eraseAll p (s.tree.names p) ∧ (Calm s → Calm s') ∧
      s'.tree.resolve false hops (locationOf path) = some p ∧ s'.tree.kindAt p = some .directory ∧
      removeDirectoryRecursive (remoteServer hops) remove path ⟨s, calls⟩ =
        finishRemoval ((remoteServer hops).rmdir s' path) calls') ∨
    (removeDirectoryRecursive (remoteServer hops) remove path ⟨s, calls⟩).1 ≠ .returned ∧
      Removal bound p s.tree s.tree s (levels + 1)
        (removeDirectoryRecursive (remoteServer hops) remove path ⟨s, calls⟩) := by
  have hnolink (target : Location) : s.tree.kindAt p ≠ some (.link target) := by simp [hdir]
  have hres' := resolve_follow hnolink hres
  obtain ⟨hfault, e, r, heq, htree⟩ | ⟨hsizes, -⟩ | ⟨items, s', calls', hnames, -, htree, hcalm, heq⟩ :=
    removeDirectory_cases remove hres' hdir calls
  · rw [heq]
    exact .inr ⟨by simp, .failed (htree ▸ Kept.refl p _) hfault⟩
  · exact absurd (size_of_children hrem) hsizes
  · have hloop := removeEntries_removal hremove hbound hdir hres hrem hnames [] rfl
      (htree.trans rfl) calls'
    rw [heq]
    generalize removeEntries remove path items ⟨s', calls'⟩ = r at hloop
    cases hloop with
    | @done r htree' hcalm' =>
      have hkept := kept_eraseAll s.tree p (s.tree.names p)
      refine .inl ⟨r.server, r.calls ++ [.rmdir path], htree', fun h => hcalm' (hcalm h), ?_, ?_, ?_⟩
      · rw [htree']
        exact resolve_outside (fun q hq => hkept.kindAt hq)
          (fun z hz => hrem.not_leadsToDirectory hdir hres' hz) hres
      · rw [htree']
        exact (hkept.kindAt fun hbelow => hbelow.2 rfl).trans hdir
      · exact if_pos rfl
    | unfinished hkept hlevels =>
      rw [if_neg (by simp)]
      exact .inr ⟨by simp, .unfinished hkept hlevels⟩
    | failed hkept hfault =>
      rw [if_neg (by simp)]
      exact .inr ⟨by simp, .failed hkept fun h => hfault (hcalm h)⟩

/-! ## One call -/

/-- How `removeItem` goes: `stat` fails, as it does where nothing is found; or what it finds is a directory,
or it is unlinked. -/
theorem removeItem_cases (hops levels : Nat) (path : Text) (s : Remote) (calls : List RemoveCall) :
    (∃ e faults, (Calm s → s.tree.resolve true hops (locationOf path) = none) ∧
      removeItem (remoteServer hops) (levels + 1) path ⟨s, calls⟩ =
        (.threw e, ⟨⟨s.tree, faults⟩, calls ++ [.stat path]⟩)) ∨
    ∃ p faults, s.tree.resolve true hops (locationOf path) = some p ∧ (Calm s → Calm ⟨s.tree, faults⟩) ∧
      removeItem (remoteServer hops) (levels + 1) path ⟨s, calls⟩ =
        if s.tree.kindAt p = some .directory then
          removeDirectoryRecursive (remoteServer hops) (removeItem (remoteServer hops) levels) path
            ⟨⟨s.tree, faults⟩, calls ++ [.stat path]⟩
        else finishRemoval ((remoteServer hops).unlink ⟨s.tree, faults⟩ path)
          (calls ++ [.stat path] ++ [.unlink path]) := by
  obtain ⟨faults, hfaults, ⟨hfault, e, heq⟩ | heq⟩ := answer_cases s (s.tree.stat hops path, s.tree)
  · have heq : (remoteServer hops).stat s path = (.error e, ⟨s.tree, faults⟩) := heq
    refine .inl ⟨e, faults, fun hcalm => absurd hcalm hfault, ?_⟩
    simp only [removeItem, heq]
  have heq : (remoteServer hops).stat s path = (s.tree.stat hops path, ⟨s.tree, faults⟩) := heq
  cases hres : s.tree.resolve true hops (locationOf path) with
  | none =>
    refine .inl ⟨.ENOENT, faults, fun _ => rfl, ?_⟩
    simp only [removeItem, heq, stat_of_none hres]
  | some p =>
    obtain ⟨st, hst, hmode⟩ := stat_of_some hres
    refine .inr ⟨p, faults, rfl, hfaults, ?_⟩
    simp only [removeItem, heq, hst, hmode]

/-- How `removeItem` goes where something is found. -/
theorem removeItem_found (hres : s.tree.resolve true hops (locationOf path) = some p) (levels : Nat)
    (calls : List RemoveCall) :
    (¬ Calm s ∧ ∃ e faults, removeItem (remoteServer hops) (levels + 1) path ⟨s, calls⟩ =
      (.threw e, ⟨⟨s.tree, faults⟩, calls ++ [.stat path]⟩)) ∨
    ∃ faults, (Calm s → Calm ⟨s.tree, faults⟩) ∧
      removeItem (remoteServer hops) (levels + 1) path ⟨s, calls⟩ =
        if s.tree.kindAt p = some .directory then
          removeDirectoryRecursive (remoteServer hops) (removeItem (remoteServer hops) levels) path
            ⟨⟨s.tree, faults⟩, calls ++ [.stat path]⟩
        else finishRemoval ((remoteServer hops).unlink ⟨s.tree, faults⟩ path)
          (calls ++ [.stat path] ++ [.unlink path]) := by
  obtain ⟨e, faults, hnowhere, heq⟩ | ⟨q, faults, hq, hfaults, heq⟩ :=
    removeItem_cases hops levels path s calls
  · refine .inl ⟨fun hcalm => ?_, e, faults, heq⟩
    rw [hnowhere hcalm] at hres
    cases hres
  · obtain rfl := Option.some.inj (hres.symm.trans hq)
    exact .inr ⟨faults, hfaults, heq⟩

/-- With so many levels, `removeItem` removes what can be removed. -/
theorem removeItem_removes (hops bound levels : Nat) :
    Removes hops bound levels (removeItem (remoteServer hops) levels) := by
  induction levels with
  | zero =>
    intro s calls path p k hbound hp hk hres hrem
    obtain ⟨x, hx, rfl, -⟩ := (kindAt_eq_some hp).mp hk
    exact .unfinished (Kept.refl _ _) (hbound x hx)
  | succ levels ih =>
    intro s calls path p k hbound hp hk hres hrem
    obtain ⟨q, hq, hkind⟩ := hrem.follow hk hres
    obtain ⟨hfault, e, faults, heq⟩ | ⟨faults, hfaults, heq⟩ := removeItem_found hq levels calls
    · rw [heq]
      exact .failed (Kept.refl _ _) hfault
    rw [heq]
    by_cases hdir : k = .directory
    · subst hdir
      rw [if_pos (hkind.mpr rfl)]
      obtain ⟨s', calls', htree, hcalm, hhere, hdir', hrun⟩ | ⟨hne, hrun⟩ :=
        removeDirectory_loop (s := ⟨s.tree, faults⟩) ih hbound hk hres hrem (calls ++ [.stat path])
      · rw [hrun]
        have hrmdir : s'.tree.rmdir hops path = (.ok (), s'.tree.erase p) := by
          have hempty : s'.tree.names p = [] := by
            rw [htree]
            exact names_eraseAll _ _
          simp only [RemoteTree.rmdir, hhere, hp, hdir', hempty, if_false, ne_eq, not_true_eq_false]
        have hleft : s'.tree.erase p = s.tree.erase p := by
          rw [htree]
          exact erase_eraseAll _ _ _
        show Removal _ _ _ _ _ _ (finishRemoval (s'.answer (s'.tree.rmdir hops path)) calls')
        rw [hrmdir, hleft]
        exact finishRemoval_removal (htree ▸ kept_eraseAll _ _ _) fun h => hcalm (hfaults h)
      · exact (hrun.of_not_returned _ hne).of_calm hfaults
    · rw [if_neg fun h => hdir (hkind.mp h)]
      have hunlink : s.tree.unlink hops path = (.ok (), s.tree.erase p) := by
        have hnot : s.tree.kindAt p ≠ some .directory := by simp [hk, hdir]
        simp only [RemoteTree.unlink, hres, hnot, if_false]
      show Removal _ _ _ _ _ _ (finishRemoval (Remote.answer ⟨s.tree, faults⟩
        (s.tree.unlink hops path)) _)
      rw [hunlink]
      exact finishRemoval_removal (Kept.refl _ _) hfaults

/-! ## The whole subtree -/

/-- A run on the root itself: all entries are removed, and the root cannot be. -/
theorem removeItem_root (hbound : ∀ x ∈ s.tree.entries, x.location.length ≤ bound)
    (hres : s.tree.resolve false hops (locationOf path) = some []) (hrem : Removable hops s.tree path [])
    (calls : List RemoveCall) :
    Right bound levels s.tree ([] <+: ·) s (removeItem (remoteServer hops) levels path ⟨s, calls⟩) := by
  cases levels with
  | zero => exact ⟨fun x hx _ => hx, fun _ => Nat.zero_le _, by simp [removeItem], fun _ h => absurd rfl h⟩
  | succ levels =>
    have hdir := s.tree.kindAt_nil
    have hfollow := resolve_follow (fun target => by simp [hdir]) hres
    obtain ⟨hfault, e, faults, heq⟩ | ⟨faults, hfaults, heq⟩ := removeItem_found hfollow levels calls
    · rw [heq]
      exact .threw rfl fun hcalm => absurd hcalm hfault
    rw [heq, if_pos hdir]
    obtain ⟨s', calls', htree, -, hhere, -, hrun⟩ | ⟨hne, hrun⟩ :=
      removeDirectory_loop (s := ⟨s.tree, faults⟩) (removeItem_removes hops bound levels) hbound hdir
        hres hrem (calls ++ [.stat path])
    · rw [hrun]
      have hrmdir : s'.tree.rmdir hops path = (.error .EBUSY, s'.tree) := by
        simp only [RemoteTree.rmdir, hhere, if_true]
      show Right _ _ _ _ _ (finishRemoval (s'.answer (s'.tree.rmdir hops path)) calls')
      rw [hrmdir]
      have hend : ∃ e r, finishRemoval (s'.answer (.error .EBUSY, s'.tree)) calls' = (.threw e, r) ∧
          r.server.tree = s'.tree := by
        obtain ⟨faults', -, ⟨-, e, heq⟩ | heq⟩ := answer_cases s' (Except.error .EBUSY, s'.tree)
        · exact ⟨e, _, by rw [heq]; rfl, rfl⟩
        · exact ⟨.EBUSY, _, by rw [heq]; rfl, rfl⟩
      obtain ⟨e, r, hend, hr⟩ := hend
      rw [hend]
      have hempty : r.server.tree.entries = [] := by
        rw [hr, htree]
        exact entries_eraseAll_root _
      refine ⟨fun x hx hout => absurd List.nil_prefix hout, by simp, by simp, fun _ _ x hx => ?_⟩
      rw [hempty] at hx
      cases hx
    · have hright := (hrun.of_not_returned (s.tree.erase []) hne).right
      exact ⟨hright.kept, hright.unfinished, hright.trapped, fun hcalm => hright.gone (hfaults hcalm)⟩

/-- A run on a path that leads nowhere does nothing. -/
theorem removeItem_nowhere (levels : Nat)
    (hres : s.tree.resolve false hops (locationOf path) = none)
    (calls : List RemoveCall) :
    (removeItem (remoteServer hops) levels path ⟨s, calls⟩).2.server.tree = s.tree ∧
      ((removeItem (remoteServer hops) levels path ⟨s, calls⟩).1 = .unfinished ∧ levels = 0 ∨
        ∃ e, (removeItem (remoteServer hops) levels path ⟨s, calls⟩).1 = .threw e) := by
  cases levels with
  | zero => exact ⟨rfl, .inl ⟨rfl, rfl⟩⟩
  | succ levels =>
    obtain ⟨e, faults, -, heq⟩ | ⟨r, faults, hr, -, -⟩ := removeItem_cases hops levels path s calls
    · rw [heq]
      exact ⟨rfl, .inr ⟨e, rfl⟩⟩
    · obtain ⟨q, hq⟩ := resolve_exists hr
      rw [hres] at hq
      cases hq

/-- Where everything can be removed, a run is right. -/
theorem removeFrom_right (levels : Nat) (hbound : ∀ x ∈ s.tree.entries, x.location.length ≤ bound)
    (h : ∀ p, s.tree.resolve false hops (locationOf path) = some p → Removable hops s.tree path p) :
    Right bound levels s.tree (s.tree.InSubtree hops path) s (removeFrom hops levels s path) := by
  cases hres : s.tree.resolve false hops (locationOf path) with
  | none =>
    have hout (q : Location) : ¬ s.tree.InSubtree hops path q := by
      rintro ⟨p, hp, -⟩
      rw [hres] at hp
      cases hp
    unfold removeFrom
    obtain ⟨htree, ⟨hzero, hlevels⟩ | ⟨e, hthrew⟩⟩ := removeItem_nowhere levels hres []
    · exact ⟨fun x hx _ => htree ▸ hx, fun _ => by omega, by simp [hzero], fun _ h => absurd hzero h⟩
    · exact ⟨fun x hx _ => htree ▸ hx, by simp [hthrew], by simp [hthrew],
        fun _ _ x _ => hout x.location⟩
  | some p =>
    have hinside : s.tree.InSubtree hops path = (p <+: ·) := by
      funext q
      refine propext ⟨?_, fun hpre => ⟨p, hres, hpre⟩⟩
      rintro ⟨p', hp', hpre⟩
      rw [hres] at hp'
      exact Option.some.inj hp' ▸ hpre
    rw [hinside]
    by_cases hp : p = []
    · subst hp
      exact removeItem_root hbound hres (h [] hres) []
    · obtain ⟨k, hk, -⟩ := resolve_kind hres
      exact (removeItem_removes hops bound levels s [] path p k hbound hp hk hres (h p hres)).right

end NFSKit.RemoteTree
