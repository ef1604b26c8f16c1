import NFSKit.Contents
import NFSKit.Foundations.Chunks

/-!
# Proofs: writing a whole file

The loop of `write` cuts the data into chunks and goes on to the next one whatever the server has
accepted, so the file is the data exactly if the server has accepted every chunk whole.
-/

namespace NFSKit.NFSClient

open Chunks

variable {data file : List UInt8} {progress : Option (Nat → Int → Bool)}
  {fsync : Option POSIXErrorCode} {offset i : Nat} {reported : List Int}
  {writes : List WriteResult} {exit : WriteExit}

/-- How long chunk `i` of the data is. -/
def chunkLength (data : List UInt8) (i : Nat) : Nat := Chunks.length data.length 1048576 i

/-- Where chunk `i` of the data starts. -/
def chunkStart (data : List UInt8) (i : Nat) : Nat := start data.length 1048576 i

/-- How many chunks the data make. -/
def chunkCount (data : List UInt8) : Nat := count data.length 1048576

/-- What the server has accepted in the first `i + 1` writes. -/
def acceptedSoFar (writes : List WriteResult) (i : Nat) : Nat :=
  ((writes.take (i + 1)).map fun result =>
    match result with
    | .accepted n => n
    | .failed _ _ => 0).sum

theorem chunkStart_lt_iff : chunkStart data i < data.length ↔ i < chunkCount data :=
  start_lt_iff (by omega)

theorem chunkStart_le : chunkStart data i ≤ data.length := start_le

theorem chunkStart_succ : chunkStart data (i + 1) = min (chunkStart data i + 1048576) data.length :=
  start_succ

theorem chunkStart_add : chunkStart data i + chunkLength data i = chunkStart data (i + 1) := by
  have hle : chunkStart data i ≤ chunkStart data (i + 1) := start_mono
  have hlength : chunkLength data i = chunkStart data (i + 1) - chunkStart data i := length_eq
  omega

/-- The chunk that is written in round `i`. -/
def writeChunk (data : List UInt8) (i : Nat) : List UInt8 :=
  (data.take (chunkStart data (i + 1))).drop (chunkStart data i)

theorem writeChunk_length : (writeChunk data i).length = chunkLength data i := by
  have hadd := @chunkStart_add data i
  have hle := @chunkStart_le data (i + 1)
  rw [writeChunk, List.length_drop, List.length_take]
  omega

/-- One round of the loop that does not end the call. -/
theorem writeFrom_cons {result : WriteResult} (hi : i < chunkCount data)
    (h : writeFrom data progress fsync (chunkStart data i) file reported (result :: writes) = some exit)
    (hok : exit.thrown = none) :
    ∃ n, result = .accepted n ∧
      writeFrom data progress fsync (chunkStart data (i + 1)) (file ++ (writeChunk data i).take n)
        (reported ++ if progress.isSome then [(chunkStart data (i + 1) : Int)] else []) writes
          = some exit := by
  rw [writeFrom, if_pos (chunkStart_lt_iff.mpr hi), ← chunkStart_succ] at h
  cases result with
  | failed e kept =>
    obtain rfl := Option.some.inj h
    cases hok
  | accepted n =>
    refine ⟨n, rfl, ?_⟩
    cases progress with
    | none => simpa [writeChunk] using h
    | some p =>
      dsimp only at h
      split at h
      · exact h
      · obtain rfl := Option.some.inj h
        cases hok

/-- A call that has returned has not put more on the server than is left of the data, and as much only
if every write has accepted its chunk whole. -/
theorem writeFrom_length
    (haccepts : ∀ j n, i + j < chunkCount data → writes[j]? = some (.accepted n) →
      n ≤ chunkLength data (i + j))
    (h : writeFrom data progress fsync (chunkStart data i) file reported writes = some exit)
    (hok : exit.thrown = none) :
    exit.file.length ≤ file.length + (data.length - chunkStart data i) ∧
      (exit.file.length = file.length + (data.length - chunkStart data i) →
        ∀ j, i + j < chunkCount data → writes[j]? = some (.accepted (chunkLength data (i + j)))) := by
  induction writes generalizing i file reported with
  | nil =>
    rw [writeFrom] at h
    split at h
    · cases h
    · rename_i hend
      obtain rfl := Option.some.inj h
      refine ⟨by simp, fun _ j hj => ?_⟩
      exact absurd (chunkStart_lt_iff.mpr (show i < chunkCount data by omega)) hend
  | cons result rest ih =>
    by_cases hi : i < chunkCount data
    · obtain ⟨n, rfl, hnext⟩ := writeFrom_cons hi h hok
      have hn : n ≤ chunkLength data i := haccepts 0 n hi rfl
      have haccepted : (file ++ (writeChunk data i).take n).length = file.length + n := by
        rw [List.length_append, List.length_take, writeChunk_length, Nat.min_eq_left hn]
      have hrest : ∀ j m, i + 1 + j < chunkCount data → rest[j]? = some (.accepted m) →
          m ≤ chunkLength data (i + 1 + j) := by
        intro j m hj hm
        have := haccepts (j + 1) m (by omega) hm
        rwa [show i + (j + 1) = i + 1 + j by omega] at this
      obtain ⟨hle, hfull⟩ := ih hrest hnext
      have hadd := @chunkStart_add data i
      have hend := @chunkStart_le data (i + 1)
      rw [haccepted] at hle hfull
      refine ⟨by omega, fun heq j hj => ?_⟩
      cases j with
      | zero =>
        obtain rfl : n = chunkLength data i := by omega
        rfl
      | succ j =>
        have := hfull (by omega) j (by omega)
        rwa [show i + (j + 1) = i + 1 + j by omega]
    · have hend : ¬chunkStart data i < data.length := fun hlt => hi (chunkStart_lt_iff.mp hlt)
      rw [writeFrom, if_neg hend] at h
      obtain rfl := Option.some.inj h
      exact ⟨by simp, fun _ j hj => absurd hj (by omega)⟩

/-- If every write accepts its chunk whole, the file is the data, and the handler is told where each
chunk ends. -/
theorem writeFrom_full
    (hfull : ∀ j, i + j < chunkCount data → writes[j]? = some (.accepted (chunkLength data (i + j))))
    (h : writeFrom data progress fsync (chunkStart data i) (data.take (chunkStart data i)) reported
      writes = some exit)
    (hok : exit.thrown = none) :
    exit.file = data ∧ ∃ values, exit.reported = reported ++ values ∧
      (progress = none → values = []) ∧
      ∀ (j : Nat) (v : Int), values[j]? = some v →
        i + j < chunkCount data ∧ v = chunkStart data (i + j + 1) := by
  induction writes generalizing i reported with
  | nil =>
    rw [writeFrom] at h
    split at h
    · cases h
    · rename_i hend
      obtain rfl := Option.some.inj h
      exact ⟨List.take_of_length_le (by omega), [], by simp⟩
  | cons result rest ih =>
    by_cases hi : i < chunkCount data
    · obtain ⟨n, rfl, hnext⟩ := writeFrom_cons hi h hok
      obtain rfl : n = chunkLength data i := by simpa using hfull 0 hi
      have hle : chunkStart data i ≤ chunkStart data (i + 1) := start_mono
      have hfile : data.take (chunkStart data i) ++ (writeChunk data i).take (chunkLength data i)
          = data.take (chunkStart data (i + 1)) := by
        rw [List.take_of_length_le (Nat.le_of_eq writeChunk_length), writeChunk,
          ← Nat.min_eq_left hle, ← List.take_take, Nat.min_eq_left hle, List.take_append_drop]
      have hrest : ∀ j, i + 1 + j < chunkCount data →
          rest[j]? = some (.accepted (chunkLength data (i + 1 + j))) := by
        intro j hj
        have := hfull (j + 1) (by omega)
        rwa [show i + (j + 1) = i + 1 + j by omega] at this
      rw [hfile] at hnext
      obtain ⟨hdata, values, hreported, hnone, hvalues⟩ := ih hrest hnext
      refine ⟨hdata, (if progress.isSome then [(chunkStart data (i + 1) : Int)] else []) ++ values,
        by rw [hreported, List.append_assoc], ?_, ?_⟩
      · rintro rfl
        simpa using hnone rfl
      · intro j v hv
        cases progress with
        | none =>
          obtain rfl := hnone rfl
          simp at hv
        | some p =>
          cases j with
          | zero => exact ⟨hi, by simpa using hv.symm⟩
          | succ j =>
            obtain ⟨hj, rfl⟩ := hvalues j v (by simpa using hv)
            exact ⟨by omega, by rw [show i + (j + 1) + 1 = i + 1 + j + 1 by omega]⟩
    · have hend : ¬chunkStart data i < data.length := fun hlt => hi (chunkStart_lt_iff.mp hlt)
      rw [writeFrom, if_neg hend] at h
      obtain rfl := Option.some.inj h
      exact ⟨List.take_of_length_le (by omega), [], by simp⟩

/-- Where a chunk ends is what has been accepted so far, as long as every chunk is accepted whole. -/
theorem acceptedSoFar_full
    (hfull : ∀ j < chunkCount data, writes[j]? = some (.accepted (chunkLength data j)))
    (hi : i < chunkCount data) : acceptedSoFar writes i = chunkStart data (i + 1) := by
  have htake : writes.take (i + 1) = (List.range (i + 1)).map fun j => .accepted (chunkLength data j) := by
    refine List.ext_getElem? fun j => ?_
    rcases Nat.lt_or_ge j (i + 1) with hlt | hge
    · rw [List.getElem?_take_of_lt hlt, hfull j (by omega), List.getElem?_map,
        List.getElem?_range hlt]
      rfl
    · rw [List.getElem?_eq_none (by simp; omega), List.getElem?_eq_none (by simpa using hge)]
  have hsum : ((List.range (i + 1)).map (chunkLength data)).sum = chunkStart data (i + 1) :=
    sum_length_range (i + 1)
  unfold acceptedSoFar
  rw [htake, List.map_map, ← hsum]
  rfl

/-- A call of `write` that has returned has put the data on the server, and told the handler how much
had been accepted, if and only if every write has accepted its chunk whole. -/
theorem write_exact_iff
    (haccepts : ∀ j n, j < chunkCount data → writes[j]? = some (.accepted n) →
      1 ≤ n ∧ n ≤ chunkLength data j)
    (h : write data progress fsync writes = some exit) (hok : exit.thrown = none) :
    (exit.file = data ∧
        ∀ (j : Nat) (v : Int), exit.reported[j]? = some v → v = acceptedSoFar writes j) ↔
      ∀ j < chunkCount data, writes[j]? = some (.accepted (chunkLength data j)) := by
  have hzero : chunkStart data 0 = 0 := by simp [chunkStart, start]
  have h : writeFrom data progress fsync (chunkStart data 0) (data.take (chunkStart data 0)) []
      writes = some exit := by
    rw [hzero]
    exact h
  constructor
  · rintro ⟨hfile, -⟩ j hj
    have hlength := writeFrom_length (i := 0)
      (fun j n hj hn => by
        rw [Nat.zero_add] at hj ⊢
        exact (haccepts j n hj hn).2) h hok
    have heq : exit.file.length
        = (data.take (chunkStart data 0)).length + (data.length - chunkStart data 0) := by
      rw [hfile, hzero]
      simp
    simpa using hlength.2 heq j (by omega)
  · intro hfull
    obtain ⟨hfile, values, hreported, -, hvalues⟩ := writeFrom_full (i := 0)
      (fun j hj => by
        rw [Nat.zero_add] at hj ⊢
        exact hfull j hj) h hok
    refine ⟨hfile, fun j v hv => ?_⟩
    rw [hreported, List.nil_append] at hv
    obtain ⟨hj, rfl⟩ := hvalues j v hv
    rw [Nat.zero_add] at hj ⊢
    rw [acceptedSoFar_full hfull hj]

/-- If the results last for all chunks, every write succeeds and the handler never says `false`, the call
ends with the result of `fsync`. -/
theorem writeFrom_returns (hi : i ≤ chunkCount data) (hlast : chunkCount data ≤ i + writes.length)
    (hok : ∀ result ∈ writes, ∃ n, result = .accepted n)
    (hgo : ∀ p, progress = some p → ∀ m v, p m v = true) :
    ∃ exit, writeFrom data progress fsync (chunkStart data i) file reported writes = some exit ∧
      exit.thrown = fsync := by
  induction writes generalizing i file reported with
  | nil =>
    have hend : ¬ chunkStart data i < data.length := by
      intro hlt
      have := chunkStart_lt_iff.mp hlt
      simp only [List.length_nil] at hlast
      omega
    exact ⟨⟨fsync, file, reported⟩, by rw [writeFrom, if_neg hend], rfl⟩
  | cons result rest ih =>
    by_cases hmore : i < chunkCount data
    · obtain ⟨n, rfl⟩ := hok result (List.mem_cons_self ..)
      have hrest : ∀ result ∈ rest, ∃ n, result = .accepted n := by
        intro result hresult
        exact hok result (List.mem_cons_of_mem _ hresult)
      have hlast' : chunkCount data ≤ i + 1 + rest.length := by
        rw [List.length_cons] at hlast
        omega
      rw [writeFrom, if_pos (chunkStart_lt_iff.mpr hmore), ← chunkStart_succ]
      cases progress with
      | none => exact ih hmore hlast' hrest
      | some p =>
        dsimp only
        rw [if_pos (hgo p rfl _ _)]
        exact ih hmore hlast' hrest
    · rw [writeFrom, if_neg fun hlt => hmore (chunkStart_lt_iff.mp hlt)]
      exact ⟨_, rfl, rfl⟩

/-- Two and a half million bytes that the server accepts in three chunks. -/
theorem write_exact_three :
    ∃ exit, write (List.replicate 2500000 7) (some fun _ _ => true) none
        [.accepted 1048576, .accepted 1048576, .accepted 402848] = some exit ∧
      exit.file = List.replicate 2500000 7 ∧
      ∀ (j : Nat) (v : Int), exit.reported[j]? = some v →
        v = acceptedSoFar [.accepted 1048576, .accepted 1048576, .accepted 402848] j := by
  generalize hdata : List.replicate 2500000 (7 : UInt8) = data
  have hsize : data.length = 2500000 := by rw [← hdata, List.length_replicate]
  have hcount : chunkCount data = 3 := by
    rw [chunkCount, hsize]
    decide
  have hfull : ∀ j < chunkCount data, ([.accepted 1048576, .accepted 1048576, .accepted 402848] :
      List WriteResult)[j]? = some (.accepted (chunkLength data j)) := by
    rw [hcount]
    unfold chunkLength
    rw [hsize]
    decide
  have hzero : chunkStart data 0 = 0 := by simp [chunkStart, start]
  obtain ⟨exit, hexit, hok⟩ := @writeFrom_returns data [] (some fun _ _ => true) none 0 []
    [.accepted 1048576, .accepted 1048576, .accepted 402848] (Nat.zero_le _) (by simp [hcount])
    (by simp) (by simp)
  rw [hzero] at hexit
  refine ⟨exit, hexit, (write_exact_iff ?_ hexit hok).mpr hfull⟩
  intro j n hj hn
  rw [hfull j hj] at hn
  obtain rfl : chunkLength data j = n := by simpa using hn
  exact ⟨Chunks.length_pos (by omega) hj, le_rfl⟩

/-- With a write size of 8192, the server is handed 8192 of 8193 bytes: the call returns, and the last
byte is lost. -/
theorem write_loses :
    ¬∀ (data : List UInt8) (progress : Option (Nat → Int → Bool)) (fsync : Option POSIXErrorCode)
      (writes : List WriteResult) (exit : WriteExit),
      (∀ j n, j < chunkCount data → writes[j]? = some (.accepted n) → 1 ≤ n ∧ n ≤ chunkLength data j) →
      write data progress fsync writes = some exit → exit.thrown = none →
      exit.file = data ∧
        ∀ (j : Nat) (v : Int), exit.reported[j]? = some v → v = acceptedSoFar writes j := by
  intro h
  obtain ⟨data, hsize⟩ : ∃ data : List UInt8, data.length = 8193 :=
    ⟨List.replicate 8193 0, List.length_replicate⟩
  have hcount : chunkCount data = 1 := by
    rw [chunkCount, hsize]
    decide
  have hlength : chunkLength data 0 = 8193 := by
    rw [chunkLength, hsize]
    decide
  have haccepts : ∀ j n, j < chunkCount data →
      ([.accepted 8192] : List WriteResult)[j]? = some (.accepted n) →
        1 ≤ n ∧ n ≤ chunkLength data j := by
    intro j n hj hn
    obtain rfl : j = 0 := by omega
    obtain rfl : 8192 = n := by simpa using hn
    omega
  have hreturns : write data none none [.accepted 8192] = some ⟨none, data.take 8192, []⟩ := by
    rw [write, writeFrom, if_pos (by omega)]
    dsimp only
    rw [writeFrom, if_neg (by omega), hsize]
    simp [List.take_take]
  have hfile := (h data none none [.accepted 8192] _ haccepts hreturns rfl).1
  have hlost := congrArg List.length hfile
  rw [List.length_take, hsize] at hlost
  omega

end NFSKit.NFSClient
