import NFSKit.Proofs.FileDataProofs
import NFSKit.Proofs.WriteProofs

/-!
# Proofs: what a write leaves behind

A call of `write` ends after some number of chunks, and these are what the server has: of each of them the
bytes that it has accepted, and behind them a beginning of the chunk that has failed, if one has. The handler
has been told where each of them ends. What is written whole can be read back on both paths of `contents`.
-/

namespace NFSKit.NFSClient

open Chunks

variable {data file : List UInt8} {progress : Option (Nat → Int → Bool)}
  {fsync : Option POSIXErrorCode} {i k : Nat} {writes rest : List WriteResult} {exit : WriteExit}
  {left : List UInt8}

/-! ## However a write ends -/

/-- How many bytes of its chunk write `i` has accepted. -/
def accepted (writes : List WriteResult) (i : Nat) : Nat :=
  match writes[i]? with
  | some (.accepted n) => n
  | _ => 0

/-- What the server has after the first `k` writes. -/
def written (data : List UInt8) (writes : List WriteResult) : Nat → List UInt8
  | 0 => []
  | k + 1 => written data writes k ++ (writeChunk data k).take (accepted writes k)

/-- What the handler has been told after the first `k` writes. -/
def told (data : List UInt8) (progress : Option (Nat → Int → Bool)) (k : Nat) : List Int :=
  if progress.isSome then (List.range k).map fun i => (chunkStart data (i + 1) : Int) else []

/-- The handler has gone on after each of the first `k` chunks. -/
def GoneOn (data : List UInt8) (progress : Option (Nat → Int → Bool)) (k : Nat) : Prop :=
  ∀ p, progress = some p → ∀ i < k, p i (chunkStart data (i + 1)) = true

/-- Why a call of `write` has ended after `k` chunks, what it throws, and what it has left of the next
chunk. -/
inductive WriteEnds (data : List UInt8) (progress : Option (Nat → Int → Bool))
    (fsync : Option POSIXErrorCode) (writes : List WriteResult) :
    Nat → Option POSIXErrorCode → List UInt8 → Prop where
  /-- There is no chunk left, and the handler has never said `false`. -/
  | flushed (hgo : GoneOn data progress (chunkCount data)) :
      WriteEnds data progress fsync writes (chunkCount data) fsync []
  /-- The next chunk has failed; the server may have a beginning of it. -/
  | failed {k kept : Nat} {e : POSIXErrorCode} (hk : k < chunkCount data) (hgo : GoneOn data progress k)
      (hfailed : writes[k]? = some (.failed e kept)) :
      WriteEnds data progress fsync writes k (some e) ((writeChunk data k).take kept)
  /-- The handler has said `false` after the chunk before, which may have been the last one: then
  nothing is missing, but nothing has been flushed. -/
  | cancelled {k : Nat} {p : Nat → Int → Bool} (hk : k < chunkCount data)
      (hgo : GoneOn data progress k) (hp : progress = some p)
      (hstop : p k (chunkStart data (k + 1)) = false) :
      WriteEnds data progress fsync writes (k + 1) (some .ECANCELED) []

/-- What a call of `write` has done in `k` chunks, and what it has left of the next one. -/
structure WriteAccount (data : List UInt8) (progress : Option (Nat → Int → Bool))
    (fsync : Option POSIXErrorCode) (writes : List WriteResult) (exit : WriteExit) (k : Nat)
    (left : List UInt8) : Prop where
  le : k ≤ chunkCount data
  succeeded : ∀ i < k, ∃ n, writes[i]? = some (.accepted n)
  file : exit.file = written data writes k ++ left
  reported : exit.reported = told data progress k
  ending : WriteEnds data progress fsync writes k exit.thrown left

theorem told_length (hp : progress.isSome = true) : (told data progress k).length = k := by
  simp [told, hp]

theorem told_succ (hp : progress.isSome = true) :
    told data progress (k + 1) = told data progress k ++ [(chunkStart data (k + 1) : Int)] := by
  simp [told, hp, List.range_succ]

theorem GoneOn.succ {p : Nat → Int → Bool} (h : GoneOn data (some p) k)
    (hp : p k (chunkStart data (k + 1)) = true) : GoneOn data (some p) (k + 1) := by
  intro q hq i hi
  obtain rfl := Option.some.inj hq
  by_cases hlast : i = k
  · rw [hlast]
    exact hp
  · exact h p rfl i (by omega)

theorem goneOn_none (data : List UInt8) (k : Nat) : GoneOn data none k := by
  intro p hp
  cases hp

/-- The loop from chunk `i` on. -/
theorem writeFrom_account (hi : i ≤ chunkCount data) (hrest : writes.drop i = rest)
    (hbefore : ∀ j < i, ∃ n, writes[j]? = some (.accepted n)) (hgo : GoneOn data progress i)
    (h : writeFrom data progress fsync (chunkStart data i) (written data writes i)
      (told data progress i) rest = some exit) :
    ∃ k left, WriteAccount data progress fsync writes exit k left := by
  induction rest generalizing i with
  | nil =>
    rw [writeFrom] at h
    by_cases hmore : i < chunkCount data
    · rw [if_pos (chunkStart_lt_iff.mpr hmore)] at h
      cases h
    · rw [if_neg fun hlt => hmore (chunkStart_lt_iff.mp hlt)] at h
      obtain rfl := Option.some.inj h
      obtain rfl : i = chunkCount data := by omega
      exact ⟨_, [], hi, hbefore, (List.append_nil _).symm, rfl, .flushed hgo⟩
  | cons result rest ih =>
    have hresult : writes[i]? = some result := by
      rw [← List.head?_drop, hrest]
      rfl
    have hnext : writes.drop (i + 1) = rest := by
      rw [← List.tail_drop, hrest]
      rfl
    rw [writeFrom] at h
    by_cases hmore : i < chunkCount data
    · rw [if_pos (chunkStart_lt_iff.mpr hmore), ← chunkStart_succ] at h
      cases result with
      | failed e kept =>
        obtain rfl := Option.some.inj h
        exact ⟨i, _, hi, hbefore, rfl, rfl, .failed hmore hgo hresult⟩
      | accepted n =>
        have haccepted : accepted writes i = n := by simp [accepted, hresult]
        have hwritten : written data writes i ++ (writeChunk data i).take n
            = written data writes (i + 1) := by rw [written, haccepted]
        have hbefore : ∀ j < i + 1, ∃ n, writes[j]? = some (.accepted n) := by
          intro j hj
          by_cases hlast : j = i
          · exact ⟨n, by rw [hlast, hresult]⟩
          · exact hbefore j (by omega)
        dsimp only at h
        rw [← writeChunk, hwritten] at h
        cases progress with
        | none =>
          have htold : told data none i = told data none (i + 1) := rfl
          dsimp only at h
          rw [htold] at h
          exact ih hmore hnext hbefore (goneOn_none data _) h
        | some p =>
          dsimp only at h
          rw [told_length rfl, ← told_succ rfl] at h
          by_cases hp : p i (chunkStart data (i + 1)) = true
          · rw [if_pos hp] at h
            exact ih hmore hnext hbefore (hgo.succ hp) h
          · rw [if_neg hp] at h
            obtain rfl := Option.some.inj h
            exact ⟨i + 1, [], hmore, hbefore, (List.append_nil _).symm, rfl,
              .cancelled hmore hgo rfl (by simpa using hp)⟩
    · rw [if_neg fun hlt => hmore (chunkStart_lt_iff.mp hlt)] at h
      obtain rfl := Option.some.inj h
      obtain rfl : i = chunkCount data := by omega
      exact ⟨_, [], hi, hbefore, (List.append_nil _).symm, rfl, .flushed hgo⟩

theorem goneOn_zero (data : List UInt8) (progress : Option (Nat → Int → Bool)) : GoneOn data progress 0 := by
  intro p _ i hi
  exact absurd hi (Nat.not_lt_zero i)

/-- A call of `write` is the loop from the first chunk on. -/
theorem writeFrom_zero (h : write data progress fsync writes = some exit) :
    writeFrom data progress fsync (chunkStart data 0) (written data writes 0) (told data progress 0) writes =
      some exit := by
  have hzero : chunkStart data 0 = 0 := by simp [chunkStart, start]
  have htold : told data progress 0 = [] := by simp [told]
  rw [hzero, htold]
  exact h

/-- However a call of `write` ends, the server has what it has accepted of the chunks up to some point and,
if the next one has failed, a beginning of that; the handler has been told where the chunks end, and the
error tells why there were no more. -/
theorem write_account (h : write data progress fsync writes = some exit) :
    ∃ k left, WriteAccount data progress fsync writes exit k left :=
  writeFrom_account (Nat.zero_le _) List.drop_zero (by simp) (goneOn_zero data progress) (writeFrom_zero h)

/-- The only chunk fails, and one of its two bytes is on the server. -/
theorem write_account_two : ∃ k left, WriteAccount [1, 2] (some fun _ _ => false) none
    [.failed .ETIMEDOUT 1] ⟨some .ETIMEDOUT, [1], []⟩ k left :=
  write_account rfl

/-! ## Reading back -/

section ReadBack

variable {size : Nat} {readMax : Int} {handler : Option Progress} {cs : List Completion}
  {reads : List (Except POSIXErrorCode Nat)} {contents' : Contents} {rexit : ReadExit}

/-- Every write that succeeds accepts its chunk whole. -/
def AcceptsWhole (data : List UInt8) (writes : List WriteResult) : Prop :=
  ∀ i < chunkCount data, ∀ n, writes[i]? = some (.accepted n) → n = chunkLength data i

/-- The first `k` chunks and a beginning of the next one are a beginning of the data. -/
theorem take_writeChunk (kept : Nat) :
    data.take (chunkStart data k) ++ (writeChunk data k).take kept =
      data.take (chunkStart data k + min kept (chunkLength data k)) := by
  have hadd := @chunkStart_add data k
  rw [writeChunk, List.take_drop, List.take_take, List.take_add, List.take_drop]
  congr 2
  congr 1
  omega

theorem written_whole (hwhole : AcceptsWhole data writes) (hk : k ≤ chunkCount data)
    (hok : ∀ i < k, ∃ n, writes[i]? = some (.accepted n)) :
    written data writes k = data.take (chunkStart data k) := by
  induction k with
  | zero => simp [written, chunkStart, start]
  | succ k ih =>
    obtain ⟨n, hn⟩ := hok k (by omega)
    have haccepted : accepted writes k = chunkLength data k := by
      simpa [accepted, hn] using hwhole k hk n hn
    rw [written, ih (by omega) fun i hi => hok i (by omega), haccepted, take_writeChunk, Nat.min_self,
      chunkStart_add]

/-- A whole file is read back, on either path, if every read of the buffer fills its slice. -/
theorem contents_whole (hmax : 1 ≤ readMax)
    (hchildren : shouldUsePreallocatedBuffer file.length → ∃ requests,
      readRequests readMax file.length = some requests ∧ (cs.map (·.request)).Perm requests ∧
        ∀ c ∈ cs, c.result = .ok c.request.count)
    (hreads : ReadsFrom file file.length 0 reads)
    (h : contents file file.length handler cs reads = some rexit)
    (hok : rexit.result = .ok contents') : contents' = file.map some := by
  unfold contents at h
  by_cases hempty : file.length = 0
  · rw [if_pos hempty] at h
    obtain rfl := Option.some.inj h
    obtain rfl := List.length_eq_zero_iff.mp hempty
    exact (Except.ok.inj hok).symm
  rw [if_neg hempty] at h
  by_cases hpre : shouldUsePreallocatedBuffer file.length
  · rw [if_pos hpre] at h
    obtain rfl := Option.some.inj h
    obtain ⟨requests, hlist, hperm, hfilled⟩ := hchildren hpre
    obtain ⟨chunk, hc, -, hlist'⟩ := readRequests_eq hmax (size_of_preallocated hpre).2
    obtain rfl := Option.some.inj (hlist.symm.trans hlist')
    rw [(data_of_ok hok).1, buffer_of_filled (slices_requests hc) hperm hfilled le_rfl, List.take_length]
  · rw [if_neg hpre] at h
    have hdata := legacy_exact (Nat.zero_le _) (Nat.zero_le _) hreads h hok
    rwa [Nat.min_self, List.take_length] at hdata

/-- Only a chunk that has failed can leave a beginning behind. -/
theorem WriteEnds.left_nil {thrown : Option POSIXErrorCode}
    (h : WriteEnds data progress fsync writes k thrown left)
    (hsucceed : ∀ e kept, .failed e kept ∉ writes) : left = [] := by
  cases h with
  | flushed hgo => rfl
  | failed hk hgo hfailed => exact absurd (List.mem_of_getElem? hfailed) (hsucceed _ _)
  | cancelled hk hgo hp hstop => rfl

/-- What a call of `write` whose chunks are accepted whole has left is a beginning of the data: as much as
the handler has been told, and of the next chunk something only if it has failed. -/
theorem WriteAccount.beginning (h : WriteAccount data progress fsync writes exit k left)
    (hwhole : AcceptsWhole data writes) :
    ∃ n ≤ chunkLength data k, exit.file = data.take (chunkStart data k + n) ∧
      exit.file.length = chunkStart data k + n ∧ (left = [] → n = 0) := by
  obtain ⟨kept, hleft, hnone⟩ : ∃ kept, left = (writeChunk data k).take kept ∧ (left = [] → kept = 0) := by
    have hending := h.ending
    generalize exit.thrown = thrown at hending
    cases hending with
    | flushed hgo => exact ⟨0, rfl, fun _ => rfl⟩
    | @failed k kept e hk hgo hfailed =>
      have hpos : 0 < chunkLength data k := Chunks.length_pos (by omega) hk
      refine ⟨kept, rfl, fun hnil => ?_⟩
      have hlength := congrArg List.length hnil
      rw [List.length_take, writeChunk_length, List.length_nil] at hlength
      omega
    | cancelled hk hgo hp hstop => exact ⟨0, rfl, fun _ => rfl⟩
  have hfile := h.file
  rw [written_whole hwhole h.le h.succeeded, hleft, take_writeChunk] at hfile
  refine ⟨min kept (chunkLength data k), Nat.min_le_right _ _, hfile, ?_, ?_⟩
  · have hadd := @chunkStart_add data k
    have hend := @chunkStart_le data (k + 1)
    rw [hfile, List.length_take]
    omega
  · intro hnil
    rw [hnone hnil, Nat.zero_min]

/-- What a write has left can be read back: it is a beginning of the data. It ends where the handler has last
been told that the write has come, or at most one chunk later if a chunk has failed; and if the write has not
thrown, it is all of the data. -/
theorem write_then_contents (hwhole : AcceptsWhole data writes)
    (hwrite : write data progress fsync writes = some exit) (hmax : 1 ≤ readMax)
    (hchildren : shouldUsePreallocatedBuffer exit.file.length → ∃ requests,
      readRequests readMax exit.file.length = some requests ∧ (cs.map (·.request)).Perm requests ∧
        ∀ c ∈ cs, c.result = .ok c.request.count)
    (hreads : ReadsFrom exit.file exit.file.length 0 reads)
    (hread : contents exit.file exit.file.length handler cs reads = some rexit)
    (hok : rexit.result = .ok contents') :
    contents' = (data.take exit.file.length).map some ∧
      (∀ v, exit.reported.getLast? = some v →
        v ≤ contents'.length ∧ contents'.length ≤ v + 1048576 ∧
          ((∀ e kept, .failed e kept ∉ writes) → contents'.length = v)) ∧
      (exit.thrown = none → contents' = data.map some) := by
  obtain ⟨k, left, haccount⟩ := writeFrom_account (Nat.zero_le _) List.drop_zero (by simp)
    (goneOn_zero data progress) (writeFrom_zero hwrite)
  obtain ⟨n, hn, hfile, hlength, hnone⟩ := haccount.beginning hwhole
  have hcontents := contents_whole hmax hchildren hreads hread hok
  refine ⟨?_, ?_, ?_⟩
  · rw [hcontents, hlength, ← hfile]
  · intro v hv
    have hchunk : chunkLength data k ≤ 1048576 := Nat.min_le_left _ _
    rw [hcontents, List.length_map, hlength]
    rw [haccount.reported, told] at hv
    by_cases hp : progress.isSome = true
    · rw [if_pos hp] at hv
      cases k with
      | zero => simp at hv
      | succ k =>
        obtain rfl : (chunkStart data (k + 1) : Int) = v := by simpa [List.range_succ] using hv
        refine ⟨by omega, by omega, fun hsucceed => ?_⟩
        rw [hnone (haccount.ending.left_nil hsucceed), Nat.add_zero]
    · rw [if_neg hp] at hv
      cases hv
  · intro hthrown
    have hending := haccount.ending
    rw [hthrown] at hending
    obtain rfl : k = chunkCount data := by
      generalize hsuccess : (none : Option POSIXErrorCode) = thrown at hending
      cases hending with
      | flushed hgo => rfl
      | failed hk hgo hfailed => cases hsuccess
      | cancelled hk hgo hp hstop => cases hsuccess
    have hend : ¬chunkStart data (chunkCount data) < data.length := by
      intro hlt
      exact absurd (chunkStart_lt_iff.mp hlt) (lt_irrefl _)
    rw [hcontents, hfile, List.take_of_length_le (by omega)]

/-- Three bytes, written at once and read back in two pieces. -/
theorem write_then_contents_three : ([some 1, some 2, some 3] : Contents) = [1, 2, 3].map some := by
  refine (@write_then_contents [1, 2, 3] none none [.accepted 3] ⟨none, [1, 2, 3], []⟩ 2 none
    [⟨⟨1, 2, 2, 1⟩, .ok 1⟩, ⟨⟨0, 0, 0, 2⟩, .ok 2⟩] [] _ _ ?_ rfl (by decide) ?_ trivial rfl rfl).2.2 rfl
  · intro i hi n hn
    have hcount : chunkCount [1, 2, 3] = 1 := by decide
    obtain rfl : i = 0 := by omega
    obtain rfl : 3 = n := by simpa using hn
    decide
  · intro _
    exact ⟨[⟨0, 0, 0, 2⟩, ⟨1, 2, 2, 1⟩], by decide, by decide, by simp⟩

end ReadBack

end NFSKit.NFSClient
