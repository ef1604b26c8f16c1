import Mathlib.Data.List.Basic
import NFSKit.Foundations.Texts

/-!
# Paths

The parts of a path are what is between the slashes and not empty. A path is a text to the one who builds
it and its bytes, up to the first NUL, to the one who follows it. Extending a path by a name adds one part
and nothing else, to the text and to the bytes.
-/

namespace NFSKit.Paths

open Utf8 Characters

/-! ## Parts -/

section Parts

variable {α : Type} [DecidableEq α] {slash : α} {name : List α}

/-- A name that can be one part of a path. -/
def IsPart (slash : α) (name : List α) : Prop := name ≠ [] ∧ slash ∉ name

instance (slash : α) (name : List α) : Decidable (IsPart slash name) := inferInstanceAs (Decidable (_ ∧ _))

/-- The parts between the slashes, without the empty ones. -/
def parts (slash : α) (path : List α) : List (List α) :=
  (path.splitOn slash).filter fun part => !part.isEmpty

theorem splitOn_append_slash (path rest : List α) :
    (path ++ slash :: rest).splitOn slash = path.splitOn slash ++ rest.splitOn slash :=
  List.splitOnP_append_cons path rest (by simp)

theorem parts_append_slash (path rest : List α) :
    parts slash (path ++ slash :: rest) = parts slash path ++ parts slash rest := by
  unfold parts
  rw [splitOn_append_slash, List.filter_append]

@[simp] theorem parts_nil : parts slash [] = [] := by simp [parts]

theorem parts_of_isPart (h : IsPart slash name) : parts slash name = [name] := by
  unfold parts
  rw [List.splitOn_eq_singleton h.2]
  simpa using h.1

/-- A slash at the end of a path adds no part. -/
theorem parts_trailing (path : List α) : parts slash (path ++ [slash]) = parts slash path := by
  rw [parts_append_slash, parts_nil, List.append_nil]

end Parts

/-! ## Paths as texts -/

/-- A name that can be one component of a path. -/
abbrev IsComponent (name : Text) : Prop := IsPart '/' name

def components (path : Text) : List Text := parts '/' path

/-- The last component. A path of slashes only is its own last component. -/
def lastComponent (path : Text) : Text :=
  match (components path).getLast? with
  | some part => part
  | none => path.take 1

section Append

variable [Characters] {path name : Text}

/-- `path.hasSuffix("/")`. -/
def hasTrailingSlash (path : Text) : Bool := (characters path).getLast? = some ['/']

/-- The path of `name` in the directory `path`. -/
def append (path name : Text) : Text :=
  if hasTrailingSlash path then path ++ name else path ++ '/' :: name

/-- What ends with a slash is a path and the slash. -/
theorem eq_append_slash (h : hasTrailingSlash path = true) : ∃ front, path = front ++ ['/'] := by
  have h : (characters path).getLast? = some ['/'] := by simpa [hasTrailingSlash] using h
  refine ⟨(characters path).dropLast.flatten, ?_⟩
  have hflatten := flatten_characters path
  rw [← List.dropLast_append_getLast? _ h, List.flatten_append, List.flatten_singleton] at hflatten
  exact hflatten.symm

/-- Between the path and the name there is a slash. -/
theorem append_cases (path name : Text) :
    (∃ front, path = front ++ ['/'] ∧ append path name = front ++ '/' :: name) ∨
      append path name = path ++ '/' :: name := by
  unfold append
  by_cases hslash : hasTrailingSlash path = true
  · obtain ⟨front, rfl⟩ := eq_append_slash hslash
    rw [if_pos hslash]
    exact .inl ⟨front, rfl, by simp⟩
  · rw [if_neg hslash]
    exact .inr rfl

/-- The components of the name come after those of the path. -/
theorem components_append' (path name : Text) :
    components (append path name) = components path ++ components name := by
  unfold components
  obtain ⟨front, rfl, happend⟩ | happend := append_cases path name
  · rw [happend, parts_append_slash, parts_trailing]
  · rw [happend, parts_append_slash]

/-- A component more, and nothing else. -/
theorem components_append (h : IsComponent name) :
    components (append path name) = components path ++ [name] := by
  rw [components_append']
  exact congrArg (components path ++ ·) (parts_of_isPart h)

theorem lastComponent_append (h : IsComponent name) : lastComponent (append path name) = name := by
  unfold lastComponent
  rw [components_append h, List.getLast?_concat]

end Append

/-! ## Paths as bytes -/

/-- The bytes of a path that is handed to C. -/
def cString (path : Text) : List UInt8 := (utf8 path).takeWhile (· ≠ 0)

/-- The names on the way. -/
def byteParts (path : Text) : List (List UInt8) := parts 0x2F (cString path)

/-- A path without NUL. -/
def NulFree (path : Text) : Prop := '\x00' ∉ path

instance (path : Text) : Decidable (NulFree path) := inferInstanceAs (Decidable (_ ∉ _))

variable {path name : Text}

theorem cString_of_nulFree (h : NulFree path) : cString path = utf8 path := by
  refine List.takeWhile_eq_self_iff.mpr ?_
  intro x hx
  have hzero : x ≠ 0 := by
    rintro rfl
    exact h ((mem_utf8_ascii (a := '\x00') (by decide)).mp hx)
  simpa using hzero

/-- What is read are the bytes of a text. -/
theorem exists_cString (path : Text) : ∃ s, cString path = utf8 s := by
  by_cases h : NulFree path
  · exact ⟨path, cString_of_nulFree h⟩
  · obtain ⟨front, rest, rfl, hfront⟩ := List.eq_append_cons_of_mem (Decidable.not_not.mp h)
    have hcons : utf8 ('\x00' :: rest) = 0 :: utf8 rest := rfl
    refine ⟨front, ?_⟩
    unfold cString
    have hkept : (utf8 front).takeWhile (· ≠ 0) = utf8 front := cString_of_nulFree hfront
    rw [utf8_append, hcons, List.takeWhile_append, hkept]
    simp

theorem isPart_utf8 (h : IsComponent name) : IsPart 0x2F (utf8 name) := by
  refine ⟨?_, fun hmem => h.2 ((mem_utf8_ascii (a := '/') (by decide)).mp hmem)⟩
  obtain ⟨c, s, rfl⟩ := List.exists_cons_of_ne_nil h.1
  simp

/-- The names on the way are the components, as bytes. -/
theorem parts_utf8 (s : Text) : parts 0x2F (utf8 s) = (parts '/' s).map utf8 := by
  induction hlength : s.length using Nat.strongRecOn generalizing s with
  | ind length ih =>
    by_cases hslash : '/' ∈ s
    · obtain ⟨a, b, rfl⟩ := List.append_of_mem hslash
      have hcons : utf8 ('/' :: b) = 0x2F :: utf8 b := rfl
      rw [List.length_append, List.length_cons] at hlength
      rw [utf8_append, hcons, parts_append_slash, parts_append_slash, List.map_append,
        ih a.length (by omega) a rfl, ih b.length (by omega) b rfl]
    · cases s with
      | nil => simp
      | cons c s =>
        have hpart : IsComponent (c :: s) := ⟨List.cons_ne_nil _ _, hslash⟩
        rw [parts_of_isPart (isPart_utf8 hpart), parts_of_isPart hpart]
        rfl

/-- A path names only what is the encoding of a text. -/
theorem wellFormed_of_mem_byteParts {n : List UInt8} (h : n ∈ byteParts path) : IsWellFormed n := by
  obtain ⟨s, hs⟩ := exists_cString path
  unfold byteParts at h
  rw [hs, parts_utf8] at h
  obtain ⟨m, -, rfl⟩ := List.mem_map.mp h
  exact wellFormed_utf8 m

/-- Behind a NUL nothing is read. -/
theorem cString_append_of_nul (h : ¬ NulFree path) (rest : Text) :
    cString (path ++ rest) = cString path := by
  have hmem : (0 : UInt8) ∈ utf8 path :=
    (mem_utf8_ascii (a := '\x00') (by decide)).mpr (Decidable.not_not.mp h)
  unfold cString
  rw [utf8_append, List.takeWhile_append, if_neg]
  intro hall
  have hself := List.takeWhile_eq_self_iff.mp ((List.takeWhile_prefix _).eq_of_length hall)
  exact absurd (hself 0 hmem) (by decide)

section Append

variable [Characters]

theorem nulFree_append (h : NulFree path) (hname : NulFree name) : NulFree (append path name) := by
  obtain ⟨front, rfl, happend⟩ | happend := append_cases path name
  · unfold NulFree
    rw [happend, List.mem_append, List.mem_cons]
    rintro (hfront | hslash | hmem)
    · exact h (List.mem_append_left _ hfront)
    · exact absurd hslash (by decide)
    · exact hname hmem
  · unfold NulFree
    rw [happend, List.mem_append, List.mem_cons]
    rintro (hpath | hslash | hmem)
    · exact h hpath
    · exact absurd hslash (by decide)
    · exact hname hmem

/-- To the bytes, too, a name adds its part and nothing else. -/
theorem byteParts_append (hnul : NulFree path) (hname : NulFree name) (h : IsComponent name) :
    byteParts (append path name) = byteParts path ++ [utf8 name] := by
  have hpart := isPart_utf8 h
  have hslash : utf8 ['/'] = [0x2F] := by decide
  have hcons : utf8 ('/' :: name) = 0x2F :: utf8 name := by
    rw [← List.singleton_append, utf8_append, hslash]
    rfl
  unfold byteParts
  rw [cString_of_nulFree hnul, cString_of_nulFree (nulFree_append hnul hname)]
  obtain ⟨front, rfl, happend⟩ | happend := append_cases path name
  · rw [happend, utf8_append, utf8_append, hcons, hslash, parts_append_slash, parts_trailing,
      parts_of_isPart hpart]
  · rw [happend, utf8_append, hcons, parts_append_slash, parts_of_isPart hpart]

theorem exists_append (path name : Text) : ∃ rest, append path name = path ++ rest := by
  unfold append
  by_cases hslash : hasTrailingSlash path = true
  · exact ⟨name, if_pos hslash⟩
  · exact ⟨'/' :: name, if_neg hslash⟩

theorem NulFree.of_append (h : NulFree (append path name)) : NulFree path := by
  obtain ⟨rest, hrest⟩ := exists_append path name
  intro hmem
  exact h (hrest ▸ List.mem_append_left rest hmem)

/-- A path with a NUL leads where it leads without what is behind. -/
theorem byteParts_append_of_nul (h : ¬ NulFree path) (name : Text) :
    byteParts (append path name) = byteParts path := by
  obtain ⟨rest, hrest⟩ := exists_append path name
  unfold byteParts
  rw [hrest, cString_append_of_nul h]

/-- An empty name leads back. -/
theorem byteParts_append_nil (path : Text) : byteParts (append path []) = byteParts path := by
  by_cases h : NulFree path
  · have hslash : utf8 ['/'] = [0x2F] := by decide
    unfold byteParts
    rw [cString_of_nulFree h, cString_of_nulFree (nulFree_append h (by simp [NulFree]))]
    obtain ⟨front, rfl, happend⟩ | happend := append_cases path []
    · rw [happend]
    · rw [happend, utf8_append, hslash, parts_trailing]
  · exact byteParts_append_of_nul h []

end Append

end NFSKit.Paths
