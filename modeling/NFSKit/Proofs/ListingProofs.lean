import NFSKit.Proofs.RemoteTreeProofs

/-!
# Proofs: listings

What is listed in a directory of a remote tree is the directory. The path of an item leads to the entry if
the name of the entry is the encoding of a text, and then the two producers of attributes agree on it but
for links and for what is below a microsecond.
-/

namespace NFSKit.RemoteTree

open Checked Paths Utf8 NFSEventLoop NFSClient FileTree

variable {t : RemoteTree} {p : Location} {n : List UInt8} {path : Text} {hops : Nat}
  {k : NodeKind (List UInt8)} {o o' : RemoteObject} {d : Attributes} {items : List Attributes}

/-! ## The entries of a directory -/

theorem objectAt_of_mem {x : TreeEntry (List UInt8) RemoteObject} (hx : x ∈ t.entries) :
    t.objectAt x.location = some x.data := by
  unfold objectAt
  rw [if_neg (t.located x hx)]
  cases hfind : t.entries.find? (·.location = x.location) with
  | none =>
    rw [List.find?_eq_none] at hfind
    exact absurd (decide_eq_true rfl) (hfind x hx)
  | some y =>
    have hy : y.location = x.location := by simpa using List.find?_some hfind
    rw [List.inj_on_of_nodup_map t.nodup (List.mem_of_find?_eq_some hfind) hx hy]
    rfl

theorem mem_children_iff : (n, o) ∈ t.children p ↔ t.objectAt (p ++ [n]) = some o := by
  rw [FileTree.mem_children]
  constructor
  · rintro ⟨x, hx, hloc, rfl⟩
    rw [← hloc]
    exact objectAt_of_mem hx
  · intro h
    rw [objectAt, if_neg (by simp)] at h
    obtain ⟨x, hfind, rfl⟩ := Option.map_eq_some_iff.mp h
    exact ⟨x, List.mem_of_find?_eq_some hfind, by simpa using List.find?_some hfind, rfl⟩

theorem kindAt_of_objectAt {q : Location} (hq : q ≠ []) (h : t.objectAt q = some o) :
    ∃ k, t.kindAt q = some k ∧ (k = .directory ↔ o.kind = .directory) ∧
      ((∃ target, k = .link target) ↔ o.kind = .symbolicLink) := by
  rw [objectAt, if_neg hq] at h
  obtain ⟨x, hfind, rfl⟩ := Option.map_eq_some_iff.mp h
  have hx := List.mem_of_find?_eq_some hfind
  have hloc : x.location = q := by simpa using List.find?_some hfind
  exact ⟨x.kind, hloc ▸ kindAt_of_mem hx, t.kinds x hx⟩

/-- What a path leads to is no link if links are followed. -/
theorem kind_of_resolve (hres : t.resolve true hops (locationOf path) = some p)
    (ho : t.objectAt p = some o) : o.kind ≠ .symbolicLink := by
  by_cases hroot : p = []
  · rw [hroot] at ho
    obtain rfl : t.root = o := Option.some.inj ho
    rw [t.root_kind]
    simp
  · obtain ⟨k, hk, -, hlink⟩ := kindAt_of_objectAt hroot ho
    obtain ⟨k', hk', hnolink⟩ := resolve_kind hres
    obtain rfl := Option.some.inj (hk.symm.trans hk')
    intro hkind
    obtain ⟨target, rfl⟩ := hlink.mpr hkind
    exact hnolink rfl target rfl

variable [Characters]

theorem listing_eq (hlist : t.listing hops path = some (.ok items)) :
    ∃ ents, t.list hops path = .ok ents ∧ readdirAll path ents = some items := by
  unfold listing contentsOfDirectory at hlist
  cases hents : t.list hops path with
  | error e =>
    rw [hents] at hlist
    cases hlist
  | ok ents =>
    rw [hents] at hlist
    obtain ⟨items', hread, heq⟩ := Option.map_eq_some_iff.mp hlist
    obtain rfl := Except.ok.inj heq
    exact ⟨ents, rfl, hread⟩

/-- The items of a listing are those of the children. -/
theorem mem_listing (hres : t.resolve true hops (locationOf path) = some p)
    (hdir : t.kindAt p = some .directory) (hlist : t.listing hops path = some (.ok items)) :
    d ∈ items ↔
      ∃ n o, t.objectAt (p ++ [n]) = some o ∧ entryAttributes path (o.dirent n) = some d := by
  obtain ⟨ents, hents, hread⟩ := listing_eq hlist
  obtain ⟨ents', hents', hchildren⟩ := list_of_directory hres hdir
  obtain rfl := Except.ok.inj (hents.symm.trans hents')
  have hmap := readdirAll_eq_some.mp hread
  rw [hchildren, List.map_map] at hmap
  have hmem : d ∈ items ↔ some d ∈ items.map some := by simp
  rw [hmem, ← hmap, List.mem_map]
  constructor
  · rintro ⟨⟨n, o⟩, hmem, hd⟩
    exact ⟨n, o, mem_children_iff.mp hmem, hd⟩
  · rintro ⟨n, o, ho, hd⟩
    exact ⟨(n, o), mem_children_iff.mpr ho, hd⟩

/-- Only directories are listed. -/
theorem resolve_of_listing (hlist : t.listing hops path = some (.ok items)) :
    ∃ p, t.resolve true hops (locationOf path) = some p ∧ t.kindAt p = some .directory := by
  obtain ⟨ents, hents, -⟩ := listing_eq hlist
  unfold RemoteTree.list at hents
  cases hres : t.resolve true hops (locationOf path) with
  | none =>
    rw [hres] at hents
    cases hents
  | some p =>
    rw [hres] at hents
    dsimp only at hents
    by_cases hdir : t.kindAt p = some .directory
    · exact ⟨p, rfl, hdir⟩
    · rw [if_neg hdir] at hents
      cases hents

/-- A directory is listed exactly if the sizes of its entries fit. -/
theorem exists_listing_iff (hres : t.resolve true hops (locationOf path) = some p)
    (hdir : t.kindAt p = some .directory) :
    (∃ items, t.listing hops path = some (.ok items)) ↔
      ∀ n o, t.objectAt (p ++ [n]) = some o → o.size < 2 ^ 63 := by
  obtain ⟨ents, hents, hchildren⟩ := list_of_directory hres hdir
  have hread : (readdirAll path ents).isSome ↔ ∀ n o, t.objectAt (p ++ [n]) = some o → o.size < 2 ^ 63 := by
    rw [(readdirAll_children hchildren).1]
    constructor
    · intro h n o ho
      exact h (n, o) (mem_children_iff.mpr ho)
    · rintro h ⟨n, o⟩ hmem
      exact h n o (mem_children_iff.mp hmem)
  rw [← hread, Option.isSome_iff_exists]
  constructor
  · rintro ⟨items, hlist⟩
    obtain ⟨ents', hents', hitems⟩ := listing_eq hlist
    obtain rfl := Except.ok.inj (hents.symm.trans hents')
    exact ⟨items, hitems⟩
  · rintro ⟨items, hitems⟩
    exact ⟨items, by simp [listing, contentsOfDirectory, hents, hitems]⟩

/-- Each entry has its item. -/
theorem exists_item (hres : t.resolve true hops (locationOf path) = some p)
    (hlist : t.listing hops path = some (.ok items)) (ho : t.objectAt (p ++ [n]) = some o) :
    ∃ d ∈ items, entryAttributes path (o.dirent n) = some d := by
  obtain ⟨q, hq, hdir⟩ := resolve_of_listing hlist
  obtain rfl := Option.some.inj (hres.symm.trans hq)
  have hsize := (exists_listing_iff hres hdir).mp ⟨items, hlist⟩ n o ho
  obtain ⟨d, hd⟩ := Option.isSome_iff_exists.mp ((entryAttributes_object_isSome o path n).mpr hsize)
  exact ⟨d, (mem_listing hres hdir hlist).mpr ⟨n, o, ho, hd⟩, hd⟩

/-! ## The path of an item -/

theorem pathKey_of_entryAttributes (hd : entryAttributes path (o.dirent n) = some d) :
    d.pathKey = append path (ofCString n) := by
  obtain ⟨size, -, rfl⟩ := entryAttributes_object hd
  rfl

/-- The dictionaries are equal exactly if the path leads to an object like that of the entry. -/
theorem item_agrees (hname : IsFileName n) (hd : entryAttributes path (o.dirent n) = some d) :
    t.item hops d.pathKey = some (.ok d) ↔
      ∃ r o', t.resolve true hops (locationOf (append path (ofCString n))) = some r ∧
        t.objectAt r = some o' ∧ o'.Resembles o := by
  have hcomponent := isComponent_of_isFileName hname
  unfold item RemoteTree.stat
  cases hfound : (t.resolve true hops (locationOf d.pathKey)).bind t.objectAt with
  | none =>
    refine iff_of_false (by simp [attributesOfItem]) ?_
    rintro ⟨r, o', hr, ho', -⟩
    rw [pathKey_of_entryAttributes hd, hr, Option.bind_some, ho'] at hfound
    cases hfound
  | some o' =>
    refine (attributesOfItem_agree hd hcomponent).trans ?_
    rw [pathKey_of_entryAttributes hd] at hfound
    obtain ⟨r, hr, ho'⟩ := Option.bind_eq_some_iff.mp hfound
    constructor
    · intro hlike
      exact ⟨r, o', hr, ho', hlike⟩
    · rintro ⟨r', o'', hr', ho'', hlike⟩
      obtain rfl := Option.some.inj (hr.symm.trans hr')
      obtain rfl := Option.some.inj (ho'.symm.trans ho'')
      exact hlike

/-- The path of an entry whose name is the encoding of a text leads to the entry, or on if it is a link. -/
theorem resembles_of_wellFormed (hres : t.resolve true hops (locationOf path) = some p)
    (ho : t.objectAt (p ++ [n]) = some o) (hn : IsWellFormed n) (hpath : NulFree path) :
    (∃ r o', t.resolve true hops (locationOf (append path (ofCString n))) = some r ∧
        t.objectAt r = some o' ∧ o'.Resembles o) ↔
      o.kind ≠ .symbolicLink ∧ o.WholeMicroseconds := by
  obtain ⟨k, hk, -, hlink⟩ := kindAt_of_objectAt (by simp) ho
  have hname := isFileName_of_kindAt hk
  by_cases hkind : o.kind = .symbolicLink
  · refine iff_of_false ?_ (fun hboth => hboth.1 hkind)
    rintro ⟨r, o', hr, ho', hlike⟩
    have htype := (resourceType_symbolicLink o).mpr hkind
    rw [← hlike.type] at htype
    exact kind_of_resolve hr ho' ((resourceType_symbolicLink o').mp htype)
  · have hhere : t.resolve true hops (locationOf (append path (ofCString n))) = some (p ++ [n]) := by
      rw [locationOf_append hname hn hpath]
      refine resolve_concat (kindAt_of_concat hk) hk (fun g hg => ?_) hres
      exact absurd (hlink.mp ⟨g, hg⟩) hkind
    rw [← RemoteObject.resembles_self]
    constructor
    · rintro ⟨r, o', hr, ho', hlike⟩
      obtain rfl := Option.some.inj (hhere.symm.trans hr)
      obtain rfl := Option.some.inj (ho.symm.trans ho')
      exact ⟨hkind, hlike⟩
    · rintro ⟨-, hlike⟩
      exact ⟨p ++ [n], o, hhere, ho, hlike⟩

/-- Every entry of a directory that is listed has its dictionary, and `attributesOfItem` returns an equal
one for its path exactly if the entry is no symbolic link and its times are whole microseconds. A name that
is not the encoding of a text, or behind a NUL, leads elsewhere: there must be an object like that of the
entry. -/
theorem listing_agrees_iff (hres : t.resolve true hops (locationOf path) = some p)
    (hlist : t.listing hops path = some (.ok items)) (ho : t.objectAt (p ++ [n]) = some o) :
    ∃ d ∈ items, entryAttributes path (o.dirent n) = some d ∧
      (t.item hops d.pathKey = some (.ok d) ↔
        if IsWellFormed n ∧ NulFree path then o.kind ≠ .symbolicLink ∧ o.WholeMicroseconds
        else ∃ r o', t.resolve true hops (locationOf (append path (ofCString n))) = some r ∧
          t.objectAt r = some o' ∧ o'.Resembles o) := by
  obtain ⟨d, hmem, hd⟩ := exists_item hres hlist ho
  obtain ⟨k, hk, -⟩ := kindAt_of_objectAt (by simp) ho
  have hagrees : t.item hops d.pathKey = some (.ok d) ↔ _ := item_agrees (isFileName_of_kindAt hk) hd
  refine ⟨d, hmem, hd, ?_⟩
  split
  · rename_i hreadable
    exact hagrees.trans (resembles_of_wellFormed hres ho hreadable.1 hreadable.2)
  · exact hagrees

/-- A regular file of one byte, whose times are so many nanoseconds after the epoch. -/
def oneByteFile (nseconds : Fin (2 ^ 32)) : RemoteObject :=
  let time : Nfstime := { Nfstime.epoch with nseconds, nseconds_lt := nseconds.isLt }
  ⟨.regular, 0o644, by decide, 1, 501, 20, 1, time, time, time⟩

/-- A tree with this file only. -/
def oneFileTree (name : List UInt8) (hname : IsFileName name) (nseconds : Fin (2 ^ 32)) : RemoteTree where
  entries := [⟨[name], .leaf, oneByteFile nseconds⟩]
  nodup := by simp
  located := by simp
  closed := by simp
  root := { oneByteFile 0 with kind := .directory }
  safe := by simpa using hname
  kinds := by simp [oneByteFile]
  root_kind := rfl

omit [Characters] in
theorem oneFileTree_objectAt {name : List UInt8} (hname : IsFileName name) (nseconds : Fin (2 ^ 32)) :
    (oneFileTree name hname nseconds).objectAt ([] ++ [name]) = some (oneByteFile nseconds) :=
  objectAt_of_mem (t := oneFileTree name hname nseconds) (List.mem_singleton_self _)

theorem oneFileTree_listing (name : List UInt8) (hname : IsFileName name) (nseconds : Fin (2 ^ 32)) :
    ∃ items, (oneFileTree name hname nseconds).listing 0 ['/'] = some (.ok items) := by
  have hroot : locationOf ['/'] = [] := by decide
  refine (exists_listing_iff (p := []) (by rw [hroot]; rfl) (kindAt_nil _)).mpr ?_
  intro n o ho
  obtain ⟨x, hx, hloc, hdata⟩ := FileTree.mem_children.mp (mem_children_iff.mpr ho)
  rw [← hdata, List.mem_singleton.mp hx]
  exact Nat.one_lt_two_pow (by decide)

omit [Characters] in
/-- A file with times of whole microseconds. -/
theorem listing_agrees_microsecond :
    ∃ items, @listing markCharacters 0 (oneFileTree [0x61] (by decide) 1000) ['/'] = some (.ok items) ∧
      ∃ d ∈ items, (oneFileTree [0x61] (by decide) 1000).item 0 d.pathKey = some (.ok d) := by
  let _ : Characters := markCharacters
  obtain ⟨items, hlist⟩ := oneFileTree_listing [0x61] (by decide) 1000
  obtain ⟨d, hmem, -, hagree⟩ :=
    listing_agrees_iff (p := []) (by decide) hlist (oneFileTree_objectAt (by decide) 1000)
  rw [if_pos (by decide)] at hagree
  exact ⟨items, hlist, d, hmem, hagree.mpr ⟨by decide, by decide, by decide, by decide⟩⟩

omit [Characters] in
/-- One nanosecond after the epoch the dates differ; and a file of the name `caf` and a byte E9 is not
found by the path that is listed for it. -/
theorem listing_disagrees :
    (∃ items, @listing markCharacters 0 (oneFileTree [0x61] (by decide) 1) ['/'] = some (.ok items) ∧
      ∃ d ∈ items, (oneFileTree [0x61] (by decide) 1).item 0 d.pathKey ≠ some (.ok d)) ∧
    ∃ items, @listing markCharacters 0 (oneFileTree [0x63, 0x61, 0x66, 0xE9] (by decide) 0) ['/'] =
        some (.ok items) ∧
      ∃ d ∈ items,
        (oneFileTree [0x63, 0x61, 0x66, 0xE9] (by decide) 0).item 0 d.pathKey = some (.error .ENOENT) := by
  let _ : Characters := markCharacters
  constructor
  · obtain ⟨items, hlist⟩ := oneFileTree_listing [0x61] (by decide) 1
    obtain ⟨d, hmem, hd⟩ := exists_item (p := []) (by decide) hlist (oneFileTree_objectAt (by decide) 1)
    refine ⟨items, hlist, d, hmem, fun hequal => ?_⟩
    obtain ⟨r, o, hr, ho, hlike⟩ := (item_agrees (by decide) hd).mp hequal
    obtain rfl : [[0x61]] = r := Option.some.inj (Eq.trans (by decide) hr)
    obtain rfl := Option.some.inj ((oneFileTree_objectAt (by decide) 1).symm.trans ho)
    exact absurd hlike.mtime (by decide)
  · obtain ⟨items, hlist⟩ := oneFileTree_listing [0x63, 0x61, 0x66, 0xE9] (by decide) 0
    obtain ⟨d, hmem, hd⟩ := exists_item (p := []) (by decide) hlist (oneFileTree_objectAt (by decide) 0)
    refine ⟨items, hlist, d, hmem, ?_⟩
    have hnone : (oneFileTree [0x63, 0x61, 0x66, 0xE9] (by decide) 0).resolve true 0
        (locationOf d.pathKey) = none := by
      rw [pathKey_of_entryAttributes hd]
      decide
    rw [item, stat_of_none hnone]
    rfl

end NFSKit.RemoteTree
