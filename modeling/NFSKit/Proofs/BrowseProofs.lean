import NFSKit.Proofs.ListingProofs
import NFSKit.Proofs.RemovableProofs

/-!
# Proofs: finding one's way by listings

What is listed in a directory is the directory, and the path of an item leads to what the item describes.
So a client that goes on with the items that are directories finds every entry below, each at one path.
-/

namespace NFSKit.RemoteTree

open Checked Paths Utf8 NFSEventLoop NFSClient FileTree

variable [Characters] {t : RemoteTree} {p rest : Location} {n : List UInt8} {path : Text} {hops : Nat}
  {k : NodeKind (List UInt8)} {o : RemoteObject} {d d' : Attributes} {items : List Attributes}

/-- The item is listed in the directory, or in a directory that is listed, and so on. -/
inductive Browsed (hops : Nat) (t : RemoteTree) : Text → Attributes → Prop where
  | listed {path : Text} {items : List Attributes} {d : Attributes}
      (hlist : t.listing hops path = some (.ok items)) (hd : d ∈ items) : Browsed hops t path d
  | within {path : Text} {items : List Attributes} {dir d : Attributes}
      (hlist : t.listing hops path = some (.ok items)) (hdir : dir ∈ items)
      (hkind : dir.isDirectoryKey = true) (hd : Browsed hops t dir.pathKey d) : Browsed hops t path d

/-- The item is what `readdirAll` makes of the object at `p ++ rest`, where `path` is a path of `p`. -/
def Describes (t : RemoteTree) (p : Location) (path : Text) (rest : Location) (d : Attributes) : Prop :=
  ∃ init n o, rest = init ++ [n] ∧ t.objectAt (p ++ rest) = some o ∧
    entryAttributes ((init.map ofCString).foldl append path) (o.dirent n) = some d

/-! ## What an item says -/

theorem Describes.pathKey (h : Describes t p path rest d) :
    d.pathKey = (rest.map ofCString).foldl append path := by
  obtain ⟨init, n, o, rfl, -, hd⟩ := h
  rw [pathKey_of_entryAttributes hd, List.map_append, List.foldl_append]
  rfl

/-- The type keys of an item are those of the entry itself. -/
theorem Describes.kind (h : Describes t p path rest d) :
    ∃ k, t.kindAt (p ++ rest) = some k ∧ (d.isDirectoryKey = true ↔ k = .directory) ∧
      (d.isSymbolicLinkKey = true ↔ ∃ target, k = .link target) := by
  obtain ⟨init, n, o, rfl, ho, hd⟩ := h
  obtain ⟨k, hk, hdir, hlink⟩ := kindAt_of_objectAt (by simp) ho
  obtain ⟨size, -, rfl⟩ := entryAttributes_object hd
  refine ⟨k, hk, ?_, ?_⟩
  · rw [hdir, ← resourceType_directory]
    exact decide_eq_true_iff
  · rw [hlink, ← resourceType_symbolicLink]
    exact decide_eq_true_iff

/-- A directory that lists an item is named by the path of the item. -/
theorem Describes.within (h : Describes t (p ++ [n]) (append path (ofCString n)) rest d) :
    Describes t p path (n :: rest) d := by
  obtain ⟨init, m, o, rfl, ho, hd⟩ := h
  refine ⟨n :: init, m, o, rfl, ?_, hd⟩
  rwa [List.append_assoc] at ho

theorem Describes.ne_nil (h : Describes t p path rest d) : rest ≠ [] := by
  obtain ⟨init, n, o, rfl, -⟩ := h
  simp

/-- The path of names that can be read is the location. -/
theorem Readable.locationOf_foldl (h : Readable t path p) (hk : t.kindAt (p ++ rest) = some k) :
    locationOf ((rest.map ofCString).foldl append path) = locationOf path ++ rest := by
  induction rest generalizing p path with
  | nil => simp
  | cons n rest ih =>
    have hn := mem_names_of_kindAt hk
    rw [← List.singleton_append, ← List.append_assoc] at hk
    rw [List.map_cons, List.foldl_cons, ih (h.child hn (Sub.refl _)) hk, h.locationOf_append hn,
      List.append_assoc]
    rfl

/-- The path of an item is resolved to the entry itself, without following it. -/
theorem Describes.resolve (hres : t.resolve true hops (locationOf path) = some p)
    (hreadable : Readable t path p) (h : Describes t p path rest d) :
    t.resolve false hops (locationOf d.pathKey) = some (p ++ rest) := by
  obtain ⟨k, hk, -⟩ := h.kind
  rw [h.pathKey, hreadable.locationOf_foldl hk]
  exact resolve_append (kindAt_of_append hk h.ne_nil) hk h.ne_nil hres

/-- A path that leads to a directory leads to a directory in it. -/
theorem resolve_directory (hres : t.resolve true hops (locationOf path) = some p)
    (hreadable : Readable t path p) (hk : t.kindAt (p ++ [n]) = some .directory) :
    t.resolve true hops (locationOf (append path (ofCString n))) = some (p ++ [n]) := by
  rw [hreadable.locationOf_append (FileTree.mem_names.mpr ⟨_, hk⟩)]
  exact resolve_concat (kindAt_of_concat hk) hk (fun g hg => by cases hg) hres

/-! ## The whole subtree -/

/-- Every item that is found describes an entry below. -/
theorem describes_of_browsed (hres : t.resolve true hops (locationOf path) = some p)
    (hreadable : Readable t path p) (h : Browsed hops t path d) : ∃ rest, Describes t p path rest d := by
  induction h generalizing p with
  | @listed path items d hlist hd =>
    obtain ⟨q, hres', hdir⟩ := resolve_of_listing hlist
    obtain rfl := Option.some.inj (hres.symm.trans hres')
    obtain ⟨n, o, ho, hattributes⟩ := (mem_listing hres hdir hlist).mp hd
    exact ⟨[n], [], n, o, rfl, ho, hattributes⟩
  | @within path items dir d hlist hdir hkind hd ih =>
    obtain ⟨q, hres', hp⟩ := resolve_of_listing hlist
    obtain rfl := Option.some.inj (hres.symm.trans hres')
    obtain ⟨n, o, ho, hattributes⟩ := (mem_listing hres hp hlist).mp hdir
    have hitem : Describes t p path [n] dir := ⟨[], n, o, rfl, ho, hattributes⟩
    obtain ⟨k, hk, hkey, -⟩ := hitem.kind
    obtain rfl := hkey.mp hkind
    rw [hitem.pathKey] at ih
    have hn : n ∈ t.names p := FileTree.mem_names.mpr ⟨_, hk⟩
    obtain ⟨rest, hrest⟩ := ih (resolve_directory hres hreadable hk) (hreadable.child hn (Sub.refl _))
    exact ⟨n :: rest, hrest.within⟩

/-- Every entry below is found. -/
theorem browsed_of_kindAt (hres : t.resolve true hops (locationOf path) = some p)
    (hreadable : Readable t path p)
    (hsizes : ∀ rest, rest ≠ [] → ∀ o, t.objectAt (p ++ rest) = some o → o.size < 2 ^ 63)
    (hrest : rest ≠ []) (hk : t.kindAt (p ++ rest) = some k) :
    ∃ d, Browsed hops t path d ∧ Describes t p path rest d := by
  induction rest generalizing p path with
  | nil => exact absurd rfl hrest
  | cons n rest ih =>
    have hdir := kindAt_of_append hk hrest
    obtain ⟨items, hlist⟩ :=
      (exists_listing_iff hres hdir).mpr fun n o ho => hsizes [n] (by simp) o ho
    have hn := mem_names_of_kindAt hk
    obtain ⟨k', hk'⟩ := mem_names.mp hn
    obtain ⟨o, ho, -⟩ := objectAt_of_kindAt hk'
    obtain ⟨item, hitem⟩ := Option.isSome_iff_exists.mp
      ((entryAttributes_object_isSome o path n).mpr (hsizes [n] (by simp) o ho))
    have hmem := (mem_listing hres hdir hlist).mpr ⟨n, o, ho, hitem⟩
    have hdescribes : Describes t p path [n] item := ⟨[], n, o, rfl, ho, hitem⟩
    by_cases hnil : rest = []
    · rw [hnil]
      exact ⟨item, .listed hlist hmem, hdescribes⟩
    · rw [← List.singleton_append, ← List.append_assoc] at hk
      have hchild := kindAt_of_append hk hnil
      have hitemkind : item.isDirectoryKey = true := by
        obtain ⟨k, hk, hkey, -⟩ := hdescribes.kind
        obtain rfl := Option.some.inj (hchild.symm.trans hk)
        exact hkey.mpr rfl
      obtain ⟨d, hd, hdescribed⟩ := ih (resolve_directory hres hreadable hchild)
        (hreadable.child hn (Sub.refl _))
        (fun rest hrest o ho => hsizes (n :: rest) (by simp) o (by rwa [List.append_assoc] at ho)) hnil hk
      refine ⟨d, .within hlist hmem hitemkind ?_, hdescribed.within⟩
      rw [hdescribes.pathKey]
      exact hd

/-- What browsing finds below a path. -/
structure Browses (hops : Nat) (t : RemoteTree) (path : Text) (p : Location) : Prop where
  /-- Each item describes an entry below, and its path is resolved to this entry. -/
  sound : ∀ d, Browsed hops t path d → ∃ rest, Describes t p path rest d ∧
    t.resolve false hops (locationOf d.pathKey) = some (p ++ rest)
  /-- Each entry below is described by an item. -/
  complete : ∀ rest k, rest ≠ [] → t.kindAt (p ++ rest) = some k →
    ∃ d, Browsed hops t path d ∧ Describes t p path rest d
  /-- No entry is found on two ways. -/
  unique : ∀ d d', Browsed hops t path d → Browsed hops t path d' →
    t.resolve false hops (locationOf d.pathKey) = t.resolve false hops (locationOf d'.pathKey) → d = d'

/-- If the names can be read and the sizes fit, browsing from a directory finds exactly the entries below,
each once. -/
theorem browsing_exact (hres : t.resolve true hops (locationOf path) = some p)
    (hreadable : Readable t path p)
    (hsizes : ∀ rest, rest ≠ [] → ∀ o, t.objectAt (p ++ rest) = some o → o.size < 2 ^ 63) :
    Browses hops t path p := by
  have hsound : ∀ d, Browsed hops t path d → ∃ rest, Describes t p path rest d ∧
      t.resolve false hops (locationOf d.pathKey) = some (p ++ rest) := by
    intro d hd
    obtain ⟨rest, hrest⟩ := describes_of_browsed hres hreadable hd
    exact ⟨rest, hrest, hrest.resolve hres hreadable⟩
  refine ⟨hsound, fun rest k hrest hk => browsed_of_kindAt hres hreadable hsizes hrest hk, ?_⟩
  intro d d' hd hd' heq
  obtain ⟨rest, ⟨init, n, o, rfl, ho, hattributes⟩, hloc⟩ := hsound d hd
  obtain ⟨rest', ⟨init', n', o', rfl, ho', hattributes'⟩, hloc'⟩ := hsound d' hd'
  have hsame := List.append_cancel_left (Option.some.inj (hloc.symm.trans (heq.trans hloc')))
  obtain ⟨rfl, hlast⟩ := List.append_inj' hsame rfl
  obtain rfl := List.singleton_inj.mp hlast
  obtain rfl := Option.some.inj (ho.symm.trans ho')
  exact Option.some.inj (hattributes.symm.trans hattributes')

omit [Characters] in
/-- A tree with a link to a directory, browsed from its root. -/
theorem browsing_exact_linked : @Browses markCharacters 1 linkedTree ['/'] [] := by
  let _ : Characters := markCharacters
  have hentry (x : TreeEntry (List UInt8) RemoteObject) (hx : x ∈ linkedTree.entries) :
      (∀ n ∈ x.location, IsWellFormed n) ∧ x.data.size = 0 := by
    simp only [linkedTree, List.mem_cons, List.not_mem_nil, or_false] at hx
    rcases hx with rfl | rfl | rfl | rfl
    all_goals exact ⟨by decide, rfl⟩
  refine browsing_exact (by decide) ⟨?_, fun hnul => absurd (by decide) hnul⟩ ?_
  · intro rest k hk n hn
    have hne : rest ≠ [] := List.ne_nil_of_mem hn
    obtain ⟨x, hx, hloc, -⟩ := (kindAt_eq_some hne).mp hk
    exact (hentry x hx).1 n (hloc ▸ hn)
  · intro rest hrest o ho
    rw [List.nil_append, objectAt, if_neg hrest] at ho
    obtain ⟨x, hfind, rfl⟩ := Option.map_eq_some_iff.mp ho
    rw [(hentry x (List.mem_of_find?_eq_some hfind)).2]
    exact Nat.two_pow_pos 63

end NFSKit.RemoteTree
