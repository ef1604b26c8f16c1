import Mathlib.Data.List.Infix
import Mathlib.Data.List.Nodup

/-!
# File trees with symbolic links

A file tree is a list of entries, each at its location below the root. A link leads to a location, which
need not exist. `resolve` walks along a path and follows the links on it, but for the last one if it is
told so, and at most so many of them.
-/

namespace NFSKit

/-- What an entry of a tree is. -/
inductive NodeKind (ν : Type) where
  | leaf
  | directory
  | link (target : List ν)
deriving DecidableEq

structure TreeEntry (ν α : Type) where
  location : List ν
  kind : NodeKind ν
  data : α

/-- The entries below the root, each in a directory of the tree. -/
structure FileTree (ν α : Type) where
  entries : List (TreeEntry ν α)
  nodup : (entries.map TreeEntry.location).Nodup
  located : ∀ x ∈ entries, x.location ≠ []
  closed : ∀ x ∈ entries, x.location.dropLast ≠ [] →
    ∃ y ∈ entries, y.location = x.location.dropLast ∧ y.kind = .directory

namespace FileTree

variable {ν α : Type} [DecidableEq ν] {t t' : FileTree ν α} {p q r : List ν} {n : ν} {k : NodeKind ν}
  {follow : Bool} {hops hops' : Nat}

/-- What is at the location; the root is a directory. -/
def kindAt (t : FileTree ν α) (p : List ν) : Option (NodeKind ν) :=
  if p = [] then some .directory else (t.entries.find? (·.location = p)).map TreeEntry.kind

/-- The entries of a directory by name. -/
def children (t : FileTree ν α) (p : List ν) : List (ν × α) :=
  t.entries.filterMap fun x =>
    if x.location.dropLast = p then x.location.getLast?.map (·, x.data) else none

def names (t : FileTree ν α) (p : List ν) : List ν := (t.children p).map Prod.fst

/-! ## Lookup -/

theorem kindAt_nil (t : FileTree ν α) : t.kindAt [] = some .directory := if_pos rfl

theorem kindAt_eq_some (hp : p ≠ []) :
    t.kindAt p = some k ↔ ∃ x ∈ t.entries, x.location = p ∧ x.kind = k := by
  rw [kindAt, if_neg hp]
  constructor
  · intro h
    obtain ⟨x, hx, hk⟩ := Option.map_eq_some_iff.mp h
    exact ⟨x, List.mem_of_find?_eq_some hx, by simpa using List.find?_some hx, hk⟩
  · rintro ⟨x, hx, hloc, hk⟩
    cases hfind : t.entries.find? (·.location = p) with
    | none =>
      rw [List.find?_eq_none] at hfind
      exact absurd (decide_eq_true hloc) (hfind x hx)
    | some y =>
      have hy : y.location = p := by simpa using List.find?_some hfind
      have heq : y = x := List.inj_on_of_nodup_map t.nodup (List.mem_of_find?_eq_some hfind) hx
        (hy.trans hloc.symm)
      rw [heq]
      exact congrArg some hk

theorem kindAt_of_mem {x : TreeEntry ν α} (hx : x ∈ t.entries) : t.kindAt x.location = some x.kind :=
  (kindAt_eq_some (t.located x hx)).mpr ⟨x, hx, rfl, rfl⟩

/-- What contains an entry is a directory. -/
theorem kindAt_of_concat (h : t.kindAt (p ++ [n]) = some k) : t.kindAt p = some .directory := by
  by_cases hp : p = []
  · rw [hp]
    exact t.kindAt_nil
  obtain ⟨x, hx, hloc, -⟩ := (kindAt_eq_some (by simp)).mp h
  have hdrop : x.location.dropLast = p := by
    rw [hloc]
    exact List.dropLast_concat
  obtain ⟨y, hy, hyloc, hykind⟩ := t.closed x hx (hdrop ▸ hp)
  exact (kindAt_eq_some hp).mpr ⟨y, hy, hyloc.trans hdrop, hykind⟩

/-- What is above an entry is a directory. -/
theorem kindAt_of_append {rest : List ν} (h : t.kindAt (p ++ rest) = some k) (hrest : rest ≠ []) :
    t.kindAt p = some .directory := by
  induction rest using List.reverseRecOn generalizing k with
  | nil => exact absurd rfl hrest
  | append_singleton rest n ih =>
    rw [← List.append_assoc] at h
    have hdir := kindAt_of_concat h
    by_cases hnil : rest = []
    · rwa [hnil, List.append_nil] at hdir
    · exact ih hdir hnil

theorem mem_children {a : α} :
    (n, a) ∈ t.children p ↔ ∃ x ∈ t.entries, x.location = p ++ [n] ∧ x.data = a := by
  unfold children
  rw [List.mem_filterMap]
  constructor
  · rintro ⟨x, hx, hchild⟩
    split at hchild
    · rename_i hdrop
      obtain ⟨m, hlast, heq⟩ := Option.map_eq_some_iff.mp hchild
      obtain ⟨rfl, rfl⟩ := Prod.mk.inj heq
      refine ⟨x, hx, ?_, rfl⟩
      rw [← hdrop, List.dropLast_append_getLast? _ hlast]
    · cases hchild
  · rintro ⟨x, hx, hloc, rfl⟩
    refine ⟨x, hx, ?_⟩
    rw [hloc, List.dropLast_concat, if_pos rfl, List.getLast?_concat]
    rfl

theorem mem_names : n ∈ t.names p ↔ ∃ k, t.kindAt (p ++ [n]) = some k := by
  constructor
  · intro h
    obtain ⟨⟨m, a⟩, hmem, rfl⟩ := List.mem_map.mp h
    obtain ⟨x, hx, hloc, -⟩ := mem_children.mp hmem
    exact ⟨x.kind, hloc ▸ kindAt_of_mem hx⟩
  · rintro ⟨k, hk⟩
    obtain ⟨x, hx, hloc, -⟩ := (kindAt_eq_some (by simp)).mp hk
    exact List.mem_map.mpr ⟨(n, x.data), mem_children.mpr ⟨x, hx, hloc, rfl⟩, rfl⟩

/-- The next name on the way to an entry is one of the directory. -/
theorem mem_names_of_kindAt {rest : List ν} (h : t.kindAt (p ++ n :: rest) = some k) : n ∈ t.names p := by
  rw [← List.singleton_append, ← List.append_assoc] at h
  by_cases hnil : rest = []
  · rw [hnil, List.append_nil] at h
    exact mem_names.mpr ⟨k, h⟩
  · exact mem_names.mpr ⟨.directory, kindAt_of_append h hnil⟩

theorem names_nodup (t : FileTree ν α) (p : List ν) : (t.names p).Nodup := by
  have hnames : t.names p = (t.entries.map TreeEntry.location).filterMap fun l =>
      if l.dropLast = p then l.getLast? else none := by
    unfold names children
    rw [List.map_filterMap, List.filterMap_map]
    refine List.filterMap_congr fun x _ => ?_
    by_cases h : x.location.dropLast = p <;> simp [h, Function.comp_def]
  rw [hnames]
  refine t.nodup.filterMap fun l l' m hl hl' => ?_
  -- a name and its directory make the location
  have joined {l : List ν} (h : m ∈ if l.dropLast = p then l.getLast? else none) : l = p ++ [m] := by
    split at h
    · rename_i hdrop
      rw [← hdrop, List.dropLast_append_getLast? _ h]
    · cases h
  rw [joined hl, joined hl']

/-! ## Erasing -/

/-- The tree without what is at or below the location. -/
def erase (t : FileTree ν α) (p : List ν) : FileTree ν α where
  entries := t.entries.filter fun x => ¬ p <+: x.location
  nodup := t.nodup.sublist (List.filter_sublist.map _)
  located := fun x hx => t.located x (List.mem_of_mem_filter hx)
  closed := by
    intro x hx hne
    obtain ⟨hx, hkept⟩ := List.mem_filter.mp hx
    obtain ⟨y, hy, hloc, hkind⟩ := t.closed x hx hne
    refine ⟨y, List.mem_filter.mpr ⟨hy, ?_⟩, hloc, hkind⟩
    have hkept : ¬ p <+: x.location := of_decide_eq_true hkept
    refine decide_eq_true fun hpre => hkept (hpre.trans ?_)
    rw [hloc]
    exact List.dropLast_prefix _

theorem mem_erase {x : TreeEntry ν α} :
    x ∈ (t.erase p).entries ↔ x ∈ t.entries ∧ ¬ p <+: x.location := by
  unfold erase
  rw [List.mem_filter]
  simp

theorem kindAt_erase (t : FileTree ν α) (p q : List ν) :
    (t.erase p).kindAt q = if q ≠ [] ∧ p <+: q then none else t.kindAt q := by
  by_cases hq : q = []
  · rw [hq, kindAt_nil, kindAt_nil]
    simp
  refine Option.ext fun k => ?_
  rw [kindAt_eq_some hq]
  by_cases hpre : p <+: q
  · rw [if_pos ⟨hq, hpre⟩]
    constructor
    · rintro ⟨x, hx, rfl, -⟩
      exact absurd hpre (mem_erase.mp hx).2
    · intro h
      cases h
  · rw [if_neg fun h => hpre h.2, kindAt_eq_some hq]
    constructor
    · rintro ⟨x, hx, hloc, hk⟩
      exact ⟨x, (mem_erase.mp hx).1, hloc, hk⟩
    · rintro ⟨x, hx, hloc, hk⟩
      exact ⟨x, mem_erase.mpr ⟨hx, hloc ▸ hpre⟩, hloc, hk⟩

/-- The tree without the entries of a directory that have these names. -/
def eraseAll (t : FileTree ν α) (p : List ν) (names : List ν) : FileTree ν α :=
  names.foldl (fun t n => t.erase (p ++ [n])) t

theorem mem_eraseAll {names : List ν} {x : TreeEntry ν α} :
    x ∈ (t.eraseAll p names).entries ↔ x ∈ t.entries ∧ ∀ n ∈ names, ¬ p ++ [n] <+: x.location := by
  induction names generalizing t with
  | nil => simp [eraseAll]
  | cons n names ih =>
    refine (ih (t := t.erase (p ++ [n]))).trans ?_
    rw [mem_erase, List.forall_mem_cons, and_assoc]

/-- Every entry of the first tree is an entry of the second. -/
def Sub (t t' : FileTree ν α) : Prop := ∀ x ∈ t.entries, x ∈ t'.entries

theorem Sub.kindAt (h : Sub t t') (hk : t.kindAt p = some k) : t'.kindAt p = some k := by
  by_cases hp : p = []
  · rw [hp, kindAt_nil] at hk ⊢
    exact hk
  · obtain ⟨x, hx, hloc, hkind⟩ := (kindAt_eq_some hp).mp hk
    exact (kindAt_eq_some hp).mpr ⟨x, h x hx, hloc, hkind⟩

omit [DecidableEq ν] in
theorem Sub.refl (t : FileTree ν α) : Sub t t := fun _ h => h

omit [DecidableEq ν] in
theorem Sub.trans {t'' : FileTree ν α} (h : Sub t t') (h' : Sub t' t'') : Sub t t'' :=
  fun x hx => h' x (h x hx)

theorem sub_erase (t : FileTree ν α) (p : List ν) : Sub (t.erase p) t := fun _ hx => (mem_erase.mp hx).1

/-! ## Resolving a path -/

/-- A walk from a directory along the names, up to the first link that is followed; `jump` goes on from
the root. -/
def steps (t : FileTree ν α) (follow : Bool) (jump : List ν → Option (List ν)) :
    List ν → List ν → Option (List ν)
  | cur, [] => some cur
  | cur, n :: rest =>
    match t.kindAt (cur ++ [n]) with
    | none => none
    | some .leaf => if rest = [] then some (cur ++ [n]) else none
    | some .directory => t.steps follow jump (cur ++ [n]) rest
    | some (.link target) =>
      if rest = [] ∧ follow = false then some (cur ++ [n]) else jump (target ++ rest)

/-- Where the path leads, if at most so many links are followed. -/
def resolve (t : FileTree ν α) (follow : Bool) : Nat → List ν → Option (List ν)
  | 0 => t.steps follow (fun _ => none) []
  | hops + 1 => t.steps follow (t.resolve follow hops) []

/-- A link leads to a directory, however many links have to be followed. -/
def LeadsToDirectory (t : FileTree ν α) (p : List ν) : Prop :=
  ∃ target hops d, t.kindAt p = some (.link target) ∧ t.resolve true hops target = some d ∧
    t.kindAt d = some .directory

variable {jump jump' : List ν → Option (List ν)} {cur path path' : List ν}

/-- What is resolved in a part of a tree, is resolved in the tree. -/
theorem steps_mono (hsub : Sub t t') (hjump : ∀ q, jump q = some r → jump' q = some r)
    (h : t.steps follow jump cur path = some r) : t'.steps follow jump' cur path = some r := by
  induction path generalizing cur with
  | nil => exact h
  | cons n rest ih =>
    unfold steps at h ⊢
    cases hk : t.kindAt (cur ++ [n]) with
    | none =>
      rw [hk] at h
      cases h
    | some k =>
      rw [hk] at h
      rw [hsub.kindAt hk]
      cases k with
      | leaf => exact h
      | directory => exact ih h
      | link target =>
        dsimp only at h ⊢
        split
        · rename_i hlast
          rwa [if_pos hlast] at h
        · rename_i hgo
          rw [if_neg hgo] at h
          exact hjump _ h

theorem resolve_mono (hsub : Sub t t') (hle : hops ≤ hops')
    (h : t.resolve follow hops path = some r) : t'.resolve follow hops' path = some r := by
  induction hops generalizing hops' path with
  | zero =>
    cases hops' with
    | zero => exact steps_mono hsub (fun q hq => by cases hq) h
    | succ hops' => exact steps_mono hsub (fun q hq => by cases hq) h
  | succ hops ih =>
    cases hops' with
    | zero => omega
    | succ hops' => exact steps_mono hsub (fun q hq => ih (by omega) hq) h

/-- Two ways to resolve a path in parts of a tree agree. -/
theorem resolve_unique {t'' : FileTree ν α} (hsub : Sub t t'') (hsub' : Sub t' t'')
    (h : t.resolve follow hops path = some p) (h' : t'.resolve follow hops' path = some q) :
    p = q := by
  have hp := resolve_mono hsub (Nat.le_max_left hops hops') h
  have hq := resolve_mono hsub' (Nat.le_max_right hops hops') h'
  exact Option.some.inj (hp.symm.trans hq)

/-- A path leads to something that exists, and to no link if links are followed. -/
theorem steps_kind (hcur : t.kindAt cur = some .directory)
    (hjump : ∀ q, jump q = some r → ∃ k, t.kindAt r = some k ∧ (follow = true → ∀ g, k ≠ .link g))
    (h : t.steps follow jump cur path = some r) :
    ∃ k, t.kindAt r = some k ∧ (follow = true → ∀ g, k ≠ .link g) := by
  induction path generalizing cur with
  | nil =>
    obtain rfl := Option.some.inj h
    exact ⟨_, hcur, fun _ _ => by simp⟩
  | cons n rest ih =>
    unfold steps at h
    cases hk : t.kindAt (cur ++ [n]) with
    | none =>
      rw [hk] at h
      cases h
    | some k =>
      rw [hk] at h
      cases k with
      | leaf =>
        dsimp only at h
        split at h
        · obtain rfl := Option.some.inj h
          exact ⟨_, hk, fun _ _ => by simp⟩
        · cases h
      | directory => exact ih hk h
      | link target =>
        dsimp only at h
        split at h
        · rename_i hlast
          obtain rfl := Option.some.inj h
          refine ⟨_, hk, fun hfollow => ?_⟩
          rw [hlast.2] at hfollow
          cases hfollow
        · exact hjump _ h

theorem resolve_kind (h : t.resolve follow hops path = some r) :
    ∃ k, t.kindAt r = some k ∧ (follow = true → ∀ g, k ≠ .link g) := by
  induction hops generalizing path with
  | zero => exact steps_kind t.kindAt_nil (fun q hq => by cases hq) h
  | succ hops ih => exact steps_kind t.kindAt_nil (fun q hq => ih hq) h

/-- One name more, in the directory that a path leads to. -/
theorem steps_concat (hp : t.kindAt p = some .directory) (hk : t.kindAt (p ++ [n]) = some k)
    (hlink : ∀ g, k = .link g → follow = false)
    (hjump : ∀ q, jump q = some p → jump' (q ++ [n]) = some (p ++ [n]))
    (h : t.steps true jump cur path = some p) :
    t.steps follow jump' cur (path ++ [n]) = some (p ++ [n]) := by
  induction path generalizing cur with
  | nil =>
    obtain rfl := Option.some.inj h
    rw [List.nil_append]
    unfold steps
    rw [hk]
    cases k with
    | leaf => exact if_pos rfl
    | directory => rfl
    | link target => exact if_pos ⟨rfl, hlink target rfl⟩
  | cons m rest ih =>
    rw [List.cons_append]
    unfold steps at h ⊢
    cases hm : t.kindAt (cur ++ [m]) with
    | none =>
      rw [hm] at h
      cases h
    | some k' =>
      rw [hm] at h
      cases k' with
      | leaf =>
        dsimp only at h
        split at h
        · obtain rfl := Option.some.inj h
          rw [hm] at hp
          cases hp
        · cases h
      | directory => exact ih h
      | link target =>
        dsimp only at h ⊢
        rw [if_neg (by simp)] at h ⊢
        rw [← List.append_assoc]
        exact hjump _ h

theorem resolve_concat (hp : t.kindAt p = some .directory) (hk : t.kindAt (p ++ [n]) = some k)
    (hlink : ∀ g, k = .link g → follow = false) (h : t.resolve true hops path = some p) :
    t.resolve follow hops (path ++ [n]) = some (p ++ [n]) := by
  induction hops generalizing path with
  | zero => exact steps_concat hp hk hlink (fun q hq => by cases hq) h
  | succ hops ih => exact steps_concat hp hk hlink (fun q hq => ih hq) h

/-- A path that goes on goes on in a directory. -/
theorem steps_prefix {rest : List ν} (hrest : rest ≠ []) (hcur : t.kindAt cur = some .directory)
    (hjump : ∀ q, jump (q ++ rest) = some r →
      ∃ d, jump' q = some d ∧ t.kindAt d = some .directory)
    (h : t.steps follow jump cur (path ++ rest) = some r) :
    ∃ d, t.steps true jump' cur path = some d ∧ t.kindAt d = some .directory := by
  induction path generalizing cur with
  | nil => exact ⟨cur, rfl, hcur⟩
  | cons n path ih =>
    rw [List.cons_append] at h
    unfold steps at h ⊢
    cases hk : t.kindAt (cur ++ [n]) with
    | none =>
      rw [hk] at h
      cases h
    | some k =>
      rw [hk] at h
      cases k with
      | leaf =>
        dsimp only at h
        rw [if_neg (by simp [hrest])] at h
        cases h
      | directory => exact ih hk h
      | link target =>
        dsimp only at h ⊢
        rw [if_neg (by simp [hrest]), ← List.append_assoc] at h
        rw [if_neg (by simp)]
        exact hjump _ h

theorem resolve_prefix {rest : List ν} (hrest : rest ≠ [])
    (h : t.resolve follow hops (path ++ rest) = some r) :
    ∃ d, t.resolve true hops path = some d ∧ t.kindAt d = some .directory := by
  induction hops generalizing path with
  | zero => exact steps_prefix hrest t.kindAt_nil (fun q hq => by cases hq) h
  | succ hops ih => exact steps_prefix hrest t.kindAt_nil (fun q hq => ih hq) h

/-! ## The last link of a path -/

/-- A path that ends in a link leads, if the link is followed, to where its target leads. -/
theorem steps_link {target : List ν} {P : Prop} (hcur : t.kindAt cur = some .directory)
    (hq : t.kindAt q = some (.link target)) (hjump : ∀ x, jump x = some q → jump' x = some r → P)
    (htarget : jump' target = some r → P) (h : t.steps false jump cur path = some q)
    (h' : t.steps true jump' cur path = some r) : P := by
  induction path generalizing cur with
  | nil =>
    obtain rfl := Option.some.inj h
    rw [hcur] at hq
    cases hq
  | cons n rest ih =>
    unfold steps at h h'
    cases hk : t.kindAt (cur ++ [n]) with
    | none =>
      rw [hk] at h
      cases h
    | some k =>
      rw [hk] at h h'
      cases k with
      | leaf =>
        dsimp only at h
        split at h
        · obtain rfl := Option.some.inj h
          rw [hk] at hq
          cases hq
        · cases h
      | directory => exact ih hk h h'
      | link g =>
        dsimp only at h h'
        rw [if_neg (by simp)] at h'
        by_cases hrest : rest = []
        · rw [if_pos ⟨hrest, rfl⟩] at h
          obtain rfl := Option.some.inj h
          rw [hk] at hq
          cases hq
          rw [hrest, List.append_nil] at h'
          exact htarget h'
        · rw [if_neg fun hlast => hrest hlast.1] at h
          exact hjump _ h h'

theorem resolve_link {target : List ν} (hq : t.kindAt q = some (.link target))
    (h : t.resolve false hops path = some q) (h' : t.resolve true hops path = some r) :
    ∃ hops', t.resolve true hops' target = some r := by
  induction hops generalizing path with
  | zero =>
    refine steps_link t.kindAt_nil hq ?_ ?_ h h'
    · intro x hx
      cases hx
    · intro hx
      cases hx
  | succ hops ih =>
    refine steps_link t.kindAt_nil hq ?_ ?_ h h'
    · intro x hx hx'
      exact ih hx hx'
    · intro hx
      exact ⟨hops, hx⟩

/-- What a path leads to has the last name of the path, if it is not followed. -/
theorem steps_getLast? (hjump : ∀ x, x ≠ [] → jump x = some q → q.getLast? = x.getLast?)
    (hpath : path ≠ []) (h : t.steps false jump cur path = some q) : q.getLast? = path.getLast? := by
  induction path generalizing cur with
  | nil => exact absurd rfl hpath
  | cons n rest ih =>
    have hlast (hrest : rest = []) (hq : some (cur ++ [n]) = some q) :
        q.getLast? = (n :: rest).getLast? := by
      obtain rfl := Option.some.inj hq
      rw [hrest, List.getLast?_concat]
      rfl
    have hmore (hrest : rest ≠ []) (front : List ν) :
        (front ++ rest).getLast? = (n :: rest).getLast? := by
      rw [List.getLast?_append_of_ne_nil _ hrest, List.getLast?_cons_of_ne_nil hrest]
    unfold steps at h
    cases hk : t.kindAt (cur ++ [n]) with
    | none =>
      rw [hk] at h
      cases h
    | some k =>
      rw [hk] at h
      cases k with
      | leaf =>
        dsimp only at h
        split at h
        · rename_i hrest
          exact hlast hrest h
        · cases h
      | directory =>
        by_cases hrest : rest = []
        · rw [hrest] at h
          exact hlast hrest h
        · exact (ih hrest h).trans (hmore hrest [])
      | link target =>
        dsimp only at h
        by_cases hrest : rest = []
        · rw [if_pos ⟨hrest, rfl⟩] at h
          exact hlast hrest h
        · rw [if_neg fun hboth => hrest hboth.1] at h
          exact (hjump _ (by simp [hrest]) h).trans (hmore hrest target)

theorem resolve_getLast? (hpath : path ≠ []) (h : t.resolve false hops path = some q) :
    q.getLast? = path.getLast? := by
  induction hops generalizing path with
  | zero => exact steps_getLast? (fun x _ hx => by cases hx) hpath h
  | succ hops ih => exact steps_getLast? (fun x hne hx => ih hne hx) hpath h

/-- A path that does not end in a link leads to the same if links are followed. -/
theorem steps_follow (hq : ∀ target, t.kindAt q ≠ some (.link target))
    (hjump : ∀ x, jump x = some q → jump' x = some q) (h : t.steps false jump cur path = some q) :
    t.steps true jump' cur path = some q := by
  induction path generalizing cur with
  | nil => exact h
  | cons n rest ih =>
    unfold steps at h ⊢
    cases hk : t.kindAt (cur ++ [n]) with
    | none =>
      rw [hk] at h
      cases h
    | some k =>
      rw [hk] at h
      cases k with
      | leaf => exact h
      | directory => exact ih h
      | link g =>
        dsimp only at h ⊢
        rw [if_neg (by simp)]
        split at h
        · obtain rfl := Option.some.inj h
          exact absurd hk (hq g)
        · exact hjump _ h

theorem resolve_follow (hq : ∀ target, t.kindAt q ≠ some (.link target))
    (h : t.resolve false hops path = some q) : t.resolve true hops path = some q := by
  induction hops generalizing path with
  | zero => exact steps_follow hq (fun x hx => by cases hx) h
  | succ hops ih => exact steps_follow hq (fun x hx => ih hx) h

/-- What leads somewhere with its links followed, leads somewhere. -/
theorem steps_exists (hjump : ∀ x, jump' x = some r → ∃ q, jump x = some q)
    (h : t.steps true jump' cur path = some r) : ∃ q, t.steps false jump cur path = some q := by
  induction path generalizing cur with
  | nil => exact ⟨cur, rfl⟩
  | cons n rest ih =>
    unfold steps at h ⊢
    cases hk : t.kindAt (cur ++ [n]) with
    | none =>
      rw [hk] at h
      cases h
    | some k =>
      rw [hk] at h
      cases k with
      | leaf => exact ⟨r, h⟩
      | directory => exact ih h
      | link g =>
        dsimp only at h ⊢
        rw [if_neg (by simp)] at h
        split
        · exact ⟨_, rfl⟩
        · exact hjump _ h

theorem resolve_exists (h : t.resolve true hops path = some r) :
    ∃ q, t.resolve false hops path = some q := by
  induction hops generalizing path with
  | zero => exact steps_exists (fun x hx => by cases hx) h
  | succ hops ih => exact steps_exists (fun x hx => ih hx) h

/-- Below a directory the path is the location. -/
theorem resolve_append {rest : List ν} (hp : t.kindAt p = some .directory)
    (hk : t.kindAt (p ++ rest) = some k) (hrest : rest ≠ [])
    (h : t.resolve true hops path = some p) :
    t.resolve false hops (path ++ rest) = some (p ++ rest) := by
  induction rest generalizing p path with
  | nil => exact absurd rfl hrest
  | cons n rest ih =>
    by_cases hnil : rest = []
    · rw [hnil] at hk ⊢
      exact resolve_concat hp hk (fun _ _ => rfl) h
    · have hsplit (l : List ν) : l ++ n :: rest = l ++ [n] ++ rest := by simp
      rw [hsplit] at hk ⊢
      rw [hsplit]
      have hdir := kindAt_of_append hk hnil
      exact ih hdir hk hnil (resolve_concat hp hdir (fun g hg => by cases hg) h)

/-! ## Paths that stay outside -/

/-- The location is strictly below `p`. -/
def Below (p q : List ν) : Prop := p <+: q ∧ q ≠ p

omit [DecidableEq ν] in
theorem Below.concat (h : Below p q) (n : ν) : Below p (q ++ [n]) := by
  refine ⟨h.1.trans (List.prefix_append _ _), fun heq => ?_⟩
  have hle := h.1.length_le
  rw [← heq, List.length_append, List.length_singleton] at hle
  omega

/-- A walk that is below `p` stays there, if no link there leads to a directory. -/
theorem steps_below (hjump : ∀ z target rest, Below p z → t.kindAt z = some (.link target) →
      rest ≠ [] → jump (target ++ rest) ≠ some r)
    (hcur : Below p cur) (h : t.steps false jump cur path = some r) : Below p r := by
  induction path generalizing cur with
  | nil => exact Option.some.inj h ▸ hcur
  | cons n rest ih =>
    have hnext := hcur.concat n
    unfold steps at h
    cases hk : t.kindAt (cur ++ [n]) with
    | none =>
      rw [hk] at h
      cases h
    | some k =>
      rw [hk] at h
      cases k with
      | leaf =>
        dsimp only at h
        split at h
        · exact Option.some.inj h ▸ hnext
        · cases h
      | directory => exact ih hnext h
      | link target =>
        dsimp only at h
        by_cases hrest : rest = []
        · rw [if_pos ⟨hrest, rfl⟩] at h
          exact Option.some.inj h ▸ hnext
        · rw [if_neg fun hlast => hrest hlast.1] at h
          exact absurd h (hjump _ target rest hnext hk hrest)

/-- A walk that ends outside is not touched by a change below `p`. -/
theorem steps_outside (hout : ∀ q, ¬ Below p q → t'.kindAt q = t.kindAt q)
    (hlinks : ∀ z target rest, Below p z → t.kindAt z = some (.link target) → rest ≠ [] →
      jump (target ++ rest) ≠ some r)
    (hjump : ∀ x, jump x = some r → jump' x = some r) (hr : ¬ Below p r)
    (h : t.steps false jump cur path = some r) : t'.steps false jump' cur path = some r := by
  induction path generalizing cur with
  | nil => exact h
  | cons n rest ih =>
    by_cases hnext : Below p (cur ++ [n])
    · -- from there the walk would not come back
      refine absurd ?_ hr
      unfold steps at h
      cases hk : t.kindAt (cur ++ [n]) with
      | none =>
        rw [hk] at h
        cases h
      | some k =>
        rw [hk] at h
        cases k with
        | leaf =>
          dsimp only at h
          split at h
          · exact Option.some.inj h ▸ hnext
          · cases h
        | directory => exact steps_below hlinks hnext h
        | link target =>
          dsimp only at h
          by_cases hrest : rest = []
          · rw [if_pos ⟨hrest, rfl⟩] at h
            exact Option.some.inj h ▸ hnext
          · rw [if_neg fun hlast => hrest hlast.1] at h
            exact absurd h (hlinks _ target rest hnext hk hrest)
    · unfold steps at h ⊢
      rw [hout _ hnext]
      cases hk : t.kindAt (cur ++ [n]) with
      | none =>
        rw [hk] at h
        cases h
      | some k =>
        rw [hk] at h
        cases k with
        | leaf => exact h
        | directory => exact ih h
        | link target =>
          dsimp only at h ⊢
          split
          · rename_i hlast
            rwa [if_pos hlast] at h
          · rename_i hgo
            rw [if_neg hgo] at h
            exact hjump _ h

/-- What leads to `p` still does so after a change below `p`, if no link there led to a directory. -/
theorem resolve_outside (hout : ∀ q, ¬ Below p q → t'.kindAt q = t.kindAt q)
    (hlinks : ∀ z, Below p z → ¬ t.LeadsToDirectory z) (h : t.resolve false hops path = some p) :
    t'.resolve false hops path = some p := by
  have hp : ¬ Below p p := fun h => h.2 rfl
  induction hops generalizing path with
  | zero =>
    exact steps_outside hout (fun _ _ _ _ _ _ hx => by cases hx) (fun x hx => by cases hx) hp h
  | succ hops ih =>
    refine steps_outside hout (fun z target rest hz hk hrest hx => ?_) (fun x hx => ih hx) hp h
    obtain ⟨d, hd, hdir⟩ := resolve_prefix hrest hx
    exact hlinks z hz ⟨target, hops, d, hk, hd, hdir⟩

end FileTree

end NFSKit
