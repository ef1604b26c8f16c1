import Mathlib.Data.List.TakeWhile

/-!
# Texts

A text is the list of its Unicode scalars. What a reader takes for one character may be several of them: the
`Characters` of a text. Its bytes are the UTF-8 encodings of the scalars. Bytes from elsewhere need not be
the encoding of a text; `repair` reads them all the same, with U+FFFD for what is ill-formed.
-/

namespace NFSKit

abbrev Text := List Char

/-- A division of texts into characters. -/
class Characters where
  characters : Text → List Text
  flatten_characters : ∀ s, (characters s).flatten = s

/-- A character that is one scalar is a scalar of the text. -/
theorem Characters.mem_of_singleton [Characters] {s : Text} {c : Char} (h : [c] ∈ characters s) : c ∈ s := by
  rw [← flatten_characters s, List.mem_flatten]
  exact ⟨[c], h, List.mem_singleton_self c⟩

/-- The combining marks of U+0300 to U+036F. -/
def isMark (c : Char) : Bool := 0x300 ≤ c.toNat ∧ c.toNat ≤ 0x36F

/-- A scalar in front of a text that is divided already. -/
def joinMark (c : Char) : List Text → List Text
  | (d :: rest) :: l => if isMark d then (c :: d :: rest) :: l else [c] :: (d :: rest) :: l
  | l => [c] :: l

/-- The characters of texts whose only scalars that join others are the combining marks. -/
@[reducible] def markCharacters : Characters where
  characters := List.foldr joinMark []
  flatten_characters := by
    intro s
    induction s with
    | nil => rfl
    | cons c s ih =>
      have hjoin (l : List Text) : (joinMark c l).flatten = c :: l.flatten := by
        unfold joinMark
        split
        · split <;> rfl
        · rfl
      rw [List.foldr_cons, hjoin, ih]

namespace Utf8

/-! ## Encoding -/

/-- The bytes of a text. -/
def utf8 (s : Text) : List UInt8 := s.flatMap String.utf8EncodeChar

@[simp] theorem utf8_nil : utf8 [] = [] := rfl

@[simp] theorem utf8_cons (c : Char) (s : Text) : utf8 (c :: s) = String.utf8EncodeChar c ++ utf8 s := rfl

@[simp] theorem utf8_append (s t : Text) : utf8 (s ++ t) = utf8 s ++ utf8 t := List.flatMap_append

theorem encode_ne_nil (c : Char) : String.utf8EncodeChar c ≠ [] := by
  intro h
  have hlength := congrArg List.length h
  have hpos := c.utf8Size_pos
  rw [String.length_utf8EncodeChar, List.length_nil] at hlength
  omega

/-- Only an ASCII scalar has an ASCII byte in its encoding. -/
theorem toNat_of_ascii {c : Char} {x : UInt8} (hx : x ∈ String.utf8EncodeChar c) (hascii : x.toNat < 0x80) :
    c.toNat = x.toNat := by
  have hvalue : c.val.toNat = c.toNat := rfl
  unfold String.utf8EncodeChar at hx
  dsimp only at hx
  split at hx
  · rename_i hsmall
    obtain rfl := List.mem_singleton.mp hx
    rw [UInt8.toNat_ofNat']
    omega
  exfalso
  split at hx
  · simp only [List.mem_cons, List.not_mem_nil, or_false] at hx
    rcases hx with rfl | rfl <;> rw [UInt8.toNat_ofNat'] at hascii <;> omega
  split at hx
  · simp only [List.mem_cons, List.not_mem_nil, or_false] at hx
    rcases hx with rfl | rfl | rfl <;> rw [UInt8.toNat_ofNat'] at hascii <;> omega
  · simp only [List.mem_cons, List.not_mem_nil, or_false] at hx
    rcases hx with rfl | rfl | rfl | rfl <;> rw [UInt8.toNat_ofNat'] at hascii <;> omega

/-- The ASCII bytes of a text are its ASCII scalars. -/
theorem mem_utf8_ascii {s : Text} {a : Char} (ha : a.toNat < 0x80) :
    UInt8.ofNat a.toNat ∈ utf8 s ↔ a ∈ s := by
  have hbyte : (UInt8.ofNat a.toNat).toNat = a.toNat := by
    rw [UInt8.toNat_ofNat']
    omega
  unfold utf8
  rw [List.mem_flatMap]
  constructor
  · rintro ⟨c, hc, hx⟩
    have hsame : c.toNat = a.toNat := (toNat_of_ascii hx (by omega)).trans hbyte
    rwa [← Char.toNat_inj.mp hsame]
  · intro h
    refine ⟨a, h, ?_⟩
    have hsmall : a.val.toNat ≤ 0x7f := Nat.le_of_lt_succ ha
    unfold String.utf8EncodeChar
    dsimp only
    rw [if_pos hsmall]
    exact List.mem_singleton_self _

/-! ## Decoding -/

/-- The scalar that the bytes begin with. -/
def decode (b : List UInt8) : Option Char := b.toByteArray.utf8DecodeChar? 0

theorem decode_encode (c : Char) (b : List UInt8) : decode (String.utf8EncodeChar c ++ b) = some c := by
  unfold decode
  rw [List.toByteArray_append]
  exact ByteArray.utf8DecodeChar?_utf8EncodeChar_append

theorem encode_of_decode {b : List UInt8} {c : Char} (h : decode b = some c) :
    b = String.utf8EncodeChar c ++ b.drop c.utf8Size := by
  obtain ⟨rest, hrest⟩ := ByteArray.exists_of_utf8DecodeChar?_eq_some h
  obtain ⟨rest, rfl⟩ : ∃ l : List UInt8, rest = l.toByteArray :=
    ⟨rest.data.toList, by ext1; simp⟩
  rw [← List.toByteArray_append, List.toByteArray_inj] at hrest
  rw [hrest, List.drop_append_of_le_length (by simp), List.drop_of_length_le (by simp), List.nil_append]

/-! ## Repair -/

/-- U+FFFD. -/
def replacement : Char := '\uFFFD'

def isContinuation (x : UInt8) : Bool := 0x80 ≤ x ∧ x ≤ 0xBF

/-- Whether a well-formed sequence can begin with the two bytes. -/
def follows (x y : UInt8) : Bool :=
  if x = 0xE0 then 0xA0 ≤ y ∧ y ≤ 0xBF
  else if x = 0xED then 0x80 ≤ y ∧ y ≤ 0x9F
  else if x = 0xF0 then 0x90 ≤ y ∧ y ≤ 0xBF
  else if x = 0xF4 then 0x80 ≤ y ∧ y ≤ 0x8F
  else 0xC2 ≤ x ∧ x ≤ 0xF3 ∧ isContinuation y

/-- How many bytes behind the first one, `x`, one replacement stands for, where no scalar begins: those with
which a well-formed sequence could have gone on. -/
def illFormed (x : UInt8) : List UInt8 → Nat
  | y :: z :: _ => if follows x y then if 0xF0 ≤ x ∧ isContinuation z then 2 else 1 else 0
  | [y] => if follows x y then 1 else 0
  | [] => 0

/-- `repair` behind the next so many bytes. -/
def repairFrom : Nat → List UInt8 → Text
  | _, [] => []
  | n + 1, _ :: rest => repairFrom n rest
  | 0, x :: rest =>
    match decode (x :: rest) with
    | some c => c :: repairFrom (c.utf8Size - 1) rest
    | none => replacement :: repairFrom (illFormed x rest) rest

/-- The text that the bytes are read as. -/
def repair (b : List UInt8) : Text := repairFrom 0 b

/-- `String(cString:)`. -/
def ofCString (b : List UInt8) : Text := repair (b.takeWhile (· ≠ 0))

/-- The text is what the bytes are read as. -/
inductive Repaired : List UInt8 → Text → Prop where
  | nil : Repaired [] []
  | scalar (c : Char) {b : List UInt8} {s : Text} (h : Repaired b s) :
      Repaired (String.utf8EncodeChar c ++ b) (c :: s)
  | illFormed (x : UInt8) {b : List UInt8} {s : Text} (n : Nat) (hdecode : decode (x :: b) = none)
      (h : Repaired (b.drop n) s) : Repaired (x :: b) (replacement :: s)

theorem repairFrom_eq (n : Nat) (b : List UInt8) : repairFrom n b = repair (b.drop n) := by
  induction n generalizing b with
  | zero => rfl
  | succ n ih =>
    cases b with
    | nil => rfl
    | cons x rest => exact ih rest

theorem repaired (b : List UInt8) : Repaired b (repair b) := by
  induction hlength : b.length using Nat.strongRecOn generalizing b with
  | ind length ih =>
    cases b with
    | nil => exact .nil
    | cons x rest =>
      have shorter (n : Nat) : Repaired (rest.drop n) (repair (rest.drop n)) := by
        refine ih _ ?_ _ rfl
        rw [← hlength, List.length_drop, List.length_cons]
        omega
      unfold repair repairFrom
      cases hdecode : decode (x :: rest) with
      | none =>
        dsimp only
        rw [repairFrom_eq]
        exact .illFormed x _ hdecode (shorter _)
      | some c =>
        dsimp only
        rw [repairFrom_eq]
        have hpos := c.utf8Size_pos
        have hdrop : (x :: rest).drop c.utf8Size = rest.drop (c.utf8Size - 1) := by
          obtain ⟨n, hn⟩ : ∃ n, c.utf8Size = n + 1 := ⟨c.utf8Size - 1, by omega⟩
          rw [hn]
          rfl
        have hscalar := Repaired.scalar c (shorter (c.utf8Size - 1))
        rwa [← hdrop, ← encode_of_decode hdecode, hdrop] at hscalar

theorem repair_encode (c : Char) (b : List UInt8) :
    repair (String.utf8EncodeChar c ++ b) = c :: repair b := by
  cases hencode : String.utf8EncodeChar c with
  | nil => exact absurd hencode (encode_ne_nil c)
  | cons x rest =>
    have hlength : rest.length = c.utf8Size - 1 := by
      rw [← String.length_utf8EncodeChar, hencode, List.length_cons, Nat.add_sub_cancel]
    have hdecode : decode (x :: (rest ++ b)) = some c := by
      rw [← List.cons_append, ← hencode]
      exact decode_encode c b
    rw [List.cons_append]
    unfold repair
    rw [repairFrom, hdecode]
    dsimp only
    rw [← hlength, repairFrom_eq, List.drop_left]
    rfl

/-- The bytes of a text are read as the text. -/
theorem repair_utf8 (s : Text) : repair (utf8 s) = s := by
  induction s with
  | nil => rfl
  | cons c s ih => rw [utf8_cons, repair_encode, ih]

variable {b : List UInt8} {s : Text} {c : Char}

/-- What is read without a replacement is the encoding of a text. -/
theorem Repaired.utf8_eq (h : Repaired b s) (hno : replacement ∉ s) : utf8 s = b := by
  induction h with
  | nil => rfl
  | scalar c _ ih => rw [utf8_cons, ih fun hmem => hno (List.mem_cons_of_mem _ hmem)]
  | illFormed => exact absurd (List.mem_cons_self ..) hno

/-- Nothing is read that is not there, but for the replacements. -/
theorem Repaired.mem (h : Repaired b s) (hc : c ∈ s) (hne : c ≠ replacement) :
    ∀ x ∈ String.utf8EncodeChar c, x ∈ b := by
  induction h with
  | nil => cases hc
  | scalar d _ ih =>
    intro x hx
    rcases List.mem_cons.mp hc with rfl | hc
    · exact List.mem_append_left _ hx
    · exact List.mem_append_right _ (ih hc x hx)
  | illFormed y n _ _ ih =>
    intro x hx
    have hc := (List.mem_cons.mp hc).resolve_left hne
    exact List.mem_cons_of_mem _ (List.mem_of_mem_drop (ih hc x hx))

/-- The bytes are the encoding of a text. -/
def IsWellFormed (b : List UInt8) : Prop := utf8 (repair b) = b

instance (b : List UInt8) : Decidable (IsWellFormed b) := inferInstanceAs (Decidable (_ = _))

theorem wellFormed_utf8 (s : Text) : IsWellFormed (utf8 s) := by
  unfold IsWellFormed
  rw [repair_utf8]

theorem repair_eq_nil (h : repair b = []) : b = [] := by
  have hrepaired := repaired b
  rw [h] at hrepaired
  cases hrepaired with
  | nil => rfl

/-- ASCII scalars that are read are there. -/
theorem mem_of_mem_repair (ha : c.toNat < 0x80) (h : c ∈ repair b) : UInt8.ofNat c.toNat ∈ b := by
  have hne : c ≠ replacement := by
    rintro rfl
    exact absurd ha (by decide)
  refine (repaired b).mem h hne _ ?_
  have hmem : UInt8.ofNat c.toNat ∈ utf8 [c] := (mem_utf8_ascii ha).mpr (List.mem_singleton_self c)
  simpa using hmem

theorem ofCString_eq (h : 0 ∉ b) : ofCString b = repair b := by
  unfold ofCString
  rw [List.takeWhile_eq_self_iff.mpr]
  intro x hx
  have hzero : x ≠ 0 := fun heq => h (heq ▸ hx)
  simpa using hzero

theorem nul_not_mem_ofCString (b : List UInt8) : '\x00' ∉ ofCString b := by
  intro h
  have hzero := mem_of_mem_repair (by decide) h
  exact absurd (List.mem_takeWhile_imp hzero) (by decide)

/-- Bytes that are read as a text of ASCII scalars are its encoding. -/
theorem utf8_of_repair (h : repair b = s) (hascii : ∀ c ∈ s, c.toNat < 0x80) : utf8 s = b := by
  rw [← h]
  refine (repaired b).utf8_eq fun hmem => ?_
  exact absurd (hascii replacement (h ▸ hmem)) (by decide)

/-- A Latin-1 letter at the end, and a sequence that is cut off. -/
example : repair [0x63, 0x61, 0x66, 0xE9] = ['c', 'a', 'f', '\uFFFD'] ∧
    repair [0xE2, 0x82, 0x41] = ['\uFFFD', 'A'] := by decide

end Utf8

end NFSKit
