import NFSKit.Client
import NFSKit.Contents
import NFSKit.Foundations.Chunks

/-!
# Proofs: the reads of the pre-allocated path

For which read sizes the arithmetic of `contentsUsingPreallocatedBuffer` has a result, and which reads
it issues then. A negative read size that is large enough gives no chunk at all, so it does not trap.
libnfs keeps its read size between 8 KiB and 4 MiB, whatever it is told, so no setting makes the
arithmetic trap.
-/

namespace NFSKit.NFSClient

open Checked IntType Chunks

/-! ## The arithmetic -/

section Arithmetic

variable {size chunk i n : Nat}

/-- The read of chunk `i`. -/
def request (size chunk i : Nat) : ReadRequest :=
  ⟨i, i * chunk, i * chunk, Chunks.length size chunk i⟩

theorem totalChunks_eq (hc : 0 < chunk) (hc' : chunk ≤ 4194304) (hs : size ≤ 67108864) :
    totalChunks size chunk = some (count size chunk : Int) := by
  have hadd : IntType.int64.add size chunk = some ((size : Int) + chunk) :=
    add_eq_some (fits_int64.mpr (by omega))
  have hsub : IntType.int64.sub ((size : Int) + chunk) 1 = some ((size : Int) + chunk - 1) :=
    sub_eq_some (fits_int64.mpr (by omega))
  have hcast : (size : Int) + chunk - 1 = ((size + chunk - 1 : Nat) : Int) := by omega
  have hdiv : ((size : Int) + chunk - 1).tdiv chunk = (count size chunk : Int) := by
    rw [hcast]
    exact (Int.ofNat_tdiv _ _).symm
  have hle : count size chunk ≤ size + chunk - 1 := Nat.div_le_self _ _
  have hquot : IntType.int64.div ((size : Int) + chunk - 1) chunk = some (count size chunk : Int) := by
    rw [div_eq_some (by omega) (fits_int64.mpr (by omega)), hdiv]
  simp only [totalChunks, hadd, hsub, hquot, Option.bind_eq_bind, Option.bind_some]

theorem readRequest_eq (hc : 0 < chunk) (hs : size ≤ 67108864) (hi : i < count size chunk) :
    readRequest size chunk i = some (request size chunk i) := by
  have hstart : i * chunk < size := start_lt hc hi
  have hmul : IntType.int64.mul i chunk = some ((i * chunk : Nat) : Int) := by
    have hfits : IntType.int64.Fits ((i : Int) * chunk) := by
      rw [← Int.natCast_mul]
      exact fits_int64.mpr (by omega)
    rw [mul_eq_some hfits, Int.natCast_mul]
  have hsub : IntType.int64.sub size ((i * chunk : Nat) : Int) = some ((size - i * chunk : Nat) : Int) := by
    rw [sub_eq_some (fits_int64.mpr (by omega)), Int.ofNat_sub (Nat.le_of_lt hstart)]
  have hcount : min (chunk : Int) ((size - i * chunk : Nat) : Int) = (Chunks.length size chunk i : Int) := by
    unfold Chunks.length
    omega
  have hlen : Chunks.length size chunk i ≤ size := by
    have := end_le hc hi
    omega
  have hoffset : IntType.uint64.convert ((i * chunk : Nat) : Int) = some ((i * chunk : Nat) : Int) :=
    convert_eq_some (fits_uint64.mpr (by omega))
  have hreads : IntType.uint64.convert (Chunks.length size chunk i : Int)
      = some (Chunks.length size chunk i : Int) :=
    convert_eq_some (fits_uint64.mpr (by omega))
  simp only [readRequest, hmul, hsub, hcount, hoffset, hreads, Option.bind_eq_bind, Option.bind_some,
    Int.toNat_natCast, request]

theorem readRequestsFrom_eq (hc : 0 < chunk) (hs : size ≤ 67108864) (h : i + n ≤ count size chunk) :
    readRequestsFrom size chunk i n = some ((List.range' i n).map (request size chunk)) := by
  induction n generalizing i with
  | zero => rfl
  | succ n ih =>
    have hhead := readRequest_eq (i := i) hc hs (by omega)
    have hrest := ih (i := i + 1) (by omega)
    simp only [readRequestsFrom, hhead, hrest, Option.bind_eq_bind, Option.bind_some,
      List.range'_succ, List.map_cons]

end Arithmetic

/-! ## The reads of a read size -/

section ReadMax

variable {size : Nat} {readMax fileSize : Int}

/-- From a positive read size on, the chunks are those of the capped read size. -/
theorem readRequests_eq (hmax : 1 ≤ readMax) (hs : size ≤ 67108864) :
    ∃ chunk : Nat, 0 < chunk ∧ chunkSize readMax = (chunk : Int) ∧
      readRequests readMax size
        = some ((List.range (count size chunk)).map (request size chunk)) := by
  obtain ⟨chunk, hchunk⟩ : ∃ chunk : Nat, chunkSize readMax = chunk :=
    Int.eq_ofNat_of_zero_le (by unfold chunkSize; omega)
  have hcap : chunkSize readMax ≤ 4194304 := by
    unfold chunkSize
    omega
  have hpos : 1 ≤ chunkSize readMax := by
    unfold chunkSize
    omega
  have hc : 0 < chunk := by omega
  have htotal : IntType.int64.convert size = some (size : Int) :=
    convert_eq_some (fits_int64.mpr (by omega))
  have hcount := totalChunks_eq hc (by omega) hs
  have hlist := readRequestsFrom_eq hc hs (Nat.le_of_eq (Nat.zero_add (count size chunk)))
  refine ⟨chunk, hc, hchunk, ?_⟩
  simp only [readRequests, htotal, hchunk, hcount, Option.bind_eq_bind, Option.bind_some,
    Int.toNat_natCast, hlist, List.range_eq_range']
  exact if_neg (Int.not_lt.mpr (Int.natCast_nonneg _))

/-- The number of chunks a negative read size gives. -/
theorem totalChunks_neg (hmax : readMax < 0) (hfits : IntType.int64.Fits readMax)
    (h1 : 1 ≤ fileSize) (hs : fileSize ≤ 67108864) :
    totalChunks fileSize readMax = IntType.int64.div (fileSize + readMax - 1) readMax := by
  have hlow := (fits_int64.mp hfits).1
  have hadd : IntType.int64.add fileSize readMax = some (fileSize + readMax) :=
    add_eq_some (fits_int64.mpr (by omega))
  have hsub : IntType.int64.sub (fileSize + readMax) 1 = some (fileSize + readMax - 1) :=
    sub_eq_some (fits_int64.mpr (by omega))
  simp only [totalChunks, hadd, hsub, Option.bind_eq_bind, Option.bind_some]

/-- One byte makes one chunk of negative length, which is no length to read. -/
theorem readRequestsFrom_neg (hmax : readMax < 0) :
    readRequestsFrom 1 readMax 0 1 = none := by
  have hmul : IntType.int64.mul ((0 : Nat) : Int) readMax = some 0 := by
    rw [mul_eq_some (by simp [fits_int64])]
    simp
  have hsub : IntType.int64.sub 1 0 = some 1 := by decide
  have hoffset : IntType.uint64.convert 0 = some 0 := by decide
  have hcount : min readMax 1 = readMax := by omega
  have hreads : IntType.uint64.convert readMax = none :=
    if_neg (fun h => by have := (fits_uint64.mp h).1; omega)
  simp only [readRequestsFrom, readRequest, hmul, hsub, hoffset, hcount, hreads,
    Option.bind_eq_bind, Option.bind_some, Option.bind_none]

/-- The quotient that counts the chunks of a negative read size. -/
theorem tdiv_neg_chunk (hmax : readMax < 0) :
    (fileSize = 1 → (fileSize + readMax - 1).tdiv readMax = 1) ∧
      (2 ≤ fileSize → fileSize ≤ -2 * readMax → (fileSize + readMax - 1).tdiv readMax = 0) ∧
      (-2 * readMax < fileSize → (fileSize + readMax - 1).tdiv readMax < 0) := by
  obtain ⟨c, rfl⟩ : ∃ c, readMax = -c := ⟨-readMax, by omega⟩
  refine ⟨?_, ?_, ?_⟩
  · rintro rfl
    rw [show (1 : Int) + -c - 1 = -c by omega]
    exact Int.tdiv_self (by omega)
  · intro h2 hle
    rw [Int.tdiv_neg]
    rcases Int.le_total (fileSize + -c - 1) 0 with hneg | hpos
    · rw [show fileSize + -c - 1 = -(c + 1 - fileSize) by omega, Int.neg_tdiv,
        Int.tdiv_eq_zero_of_lt (by omega) (by omega)]
      rfl
    · rw [Int.tdiv_eq_zero_of_lt hpos (by omega)]
      rfl
  · intro hlt
    have hquot : 1 ≤ (fileSize + -c - 1) / c := (Int.le_ediv_iff_mul_le (by omega)).mpr (by omega)
    rw [Int.tdiv_neg, Int.tdiv_eq_ediv_of_nonneg (by omega)]
    omega

/-- The arithmetic of the pre-allocated path goes through for every positive read size, and for a
negative one that leaves no chunk to read. -/
theorem readRequests_isSome_iff (hmax : IntType.int64.Fits readMax)
    (hsize : shouldUsePreallocatedBuffer fileSize) :
    (readRequests readMax fileSize).isSome ↔
      1 ≤ readMax ∨ (readMax < 0 ∧ 2 ≤ fileSize ∧ fileSize ≤ -2 * readMax) := by
  obtain ⟨h1, hs⟩ : 0 < fileSize ∧ fileSize ≤ 67108864 := by
    simpa [shouldUsePreallocatedBuffer, contentsBufferThreshold] using hsize
  have htotal : IntType.int64.convert fileSize = some fileSize :=
    convert_eq_some (fits_int64.mpr (by omega))
  rcases Int.lt_trichotomy readMax 0 with hneg | rfl | hpos
  · have hchunk : chunkSize readMax = readMax := by
      unfold chunkSize
      omega
    have hcount := totalChunks_neg hneg hmax (by omega) hs
    obtain ⟨hone, hzero, hmany⟩ := @tdiv_neg_chunk _ fileSize hneg
    simp only [readRequests, htotal, hchunk, hcount, Option.bind_eq_bind, Option.bind_some]
    rcases Int.lt_or_le fileSize 2 with hlt | hge
    · obtain rfl : fileSize = 1 := by omega
      rw [div_eq_some (by omega) (by rw [hone rfl]; decide), hone rfl, Option.bind_some]
      have hnone := readRequestsFrom_neg hneg
      simp [hnone]
      omega
    · rcases Int.lt_or_le (-2 * readMax) fileSize with hover | hfit
      · have hquot := hmany hover
        have hnone : ((IntType.int64.div (fileSize + readMax - 1) readMax).bind fun n =>
            if n < 0 then none else readRequestsFrom fileSize readMax 0 n.toNat) = none := by
          unfold IntType.div convert
          rw [if_neg (by omega)]
          split
          · exact if_pos hquot
          · rfl
        rw [hnone]
        simp
        omega
      · rw [div_eq_some (by omega) (by rw [hzero hge hfit]; decide), hzero hge hfit,
          Option.bind_some]
        simp [readRequestsFrom]
        omega
  · have hchunk : chunkSize 0 = 0 := by decide
    simp [readRequests, htotal, hchunk, totalChunks, div_zero]
  · obtain ⟨size, rfl⟩ : ∃ size : Nat, fileSize = size := Int.eq_ofNat_of_zero_le (by omega)
    have hle : size ≤ 67108864 := by omega
    have hpos : 1 ≤ readMax := hpos
    obtain ⟨chunk, -, -, hlist⟩ := readRequests_eq hpos hle
    rw [hlist]
    simp
    omega

/-- Whatever `configurePerformance` is called with, in any state of the loop: for a libnfs that keeps its
read size between 8 KiB and 4 MiB, the arithmetic has a result for every file that takes this path. -/
theorem readRequests_isSome (nfs_get_readmax : State → Int)
    (hrange : ∀ s, 8192 ≤ nfs_get_readmax s ∧ nfs_get_readmax s ≤ 4194304) {s : State}
    {p : PerformanceSettings}
    (hmax : (s.configurePerformance p).1.getReadMax nfs_get_readmax = .ok readMax)
    (hsize : shouldUsePreallocatedBuffer fileSize) : (readRequests readMax fileSize).isSome := by
  generalize (s.configurePerformance p).1 = t at hmax
  have hstored : readMax = nfs_get_readmax t := by
    unfold State.getReadMax State.report at hmax
    cases hctx : t.context with
    | none =>
      rw [hctx] at hmax
      cases hmax
    | some ctx =>
      rw [hctx] at hmax
      exact (Except.ok.inj hmax).symm
  obtain ⟨hlow, hhigh⟩ := hrange t
  rw [← hstored] at hlow hhigh
  have hfits : IntType.int64.Fits readMax := fits_int64.mpr (by omega)
  exact (readRequests_isSome_iff hfits hsize).mpr (.inl (by omega))

theorem transferSize_range (bytes : Int) :
    8192 ≤ transferSize bytes ∧ transferSize bytes ≤ 4194304 := by
  unfold transferSize
  omega

/-- The read size of the vendored library is in the range that the arithmetic needs. -/
theorem storedReadMax_range (settings : List Setting) :
    8192 ≤ storedReadMax settings ∧ storedReadMax settings ≤ 4194304 := by
  induction settings with
  | nil => decide
  | cons x settings ih =>
    cases x with
    | readMax bytes => exact transferSize_range bytes
    | _ => exact ih

/-- The read size that libnfs stores for 0, where the arithmetic alone would divide by zero. -/
theorem readRequests_isSome_zero :
    readRequests 0 3000000 = none ∧
      ∃ readMax, (((State.init 0).configurePerformance { readMax := some 0 }).1).getReadMax
        (fun s => storedReadMax s.settings) = .ok readMax ∧
      (readRequests readMax 3000000).isSome := by
  refine ⟨by decide, 8192, rfl, ?_⟩
  refine readRequests_isSome (fun s => storedReadMax s.settings) ?_
    (s := State.init 0) (p := { readMax := some 0 }) rfl (by decide)
  intro s
  exact storedReadMax_range s.settings

end ReadMax

/-! ## The slices of the buffer -/

/-- The read fills byte `k` of the buffer if it fills its request. -/
def ReadRequest.Covers (r : ReadRequest) (k : Nat) : Prop :=
  r.byteOffset ≤ k ∧ k < r.byteOffset + r.count

/-- The reads divide a buffer of `size` bytes, and put each byte of the file where it is in the file. -/
structure Slices (size : Nat) (requests : List ReadRequest) : Prop where
  nonempty : ∀ r ∈ requests, 0 < r.count
  disjoint : requests.Pairwise fun r r' => ∀ k, ¬(r.Covers k ∧ r'.Covers k)
  inside : ∀ r ∈ requests, r.byteOffset + r.count ≤ size
  cover : ∀ k < size, ∃ r ∈ requests, r.Covers k
  offset : ∀ r ∈ requests, r.offset = r.byteOffset

theorem slices_requests {size chunk : Nat} (hc : 0 < chunk) :
    Slices size ((List.range (count size chunk)).map (request size chunk)) where
  nonempty := by
    intro r hr
    obtain ⟨i, hi, rfl⟩ := List.mem_map.mp hr
    exact length_pos hc (List.mem_range.mp hi)
  disjoint := by
    refine List.Pairwise.map _ ?_ List.pairwise_lt_range
    rintro i j hij k ⟨⟨hi, hi'⟩, ⟨hj, hj'⟩⟩
    exact absurd (eq_of_covered hi hi' hj hj') (Nat.ne_of_lt hij)
  inside := by
    intro r hr
    obtain ⟨i, hi, rfl⟩ := List.mem_map.mp hr
    exact end_le hc (List.mem_range.mp hi)
  cover := by
    intro k hk
    obtain ⟨hlt, hlow, hhigh⟩ := covered hc hk
    exact ⟨_, List.mem_map.mpr ⟨k / chunk, List.mem_range.mpr hlt, rfl⟩, hlow, hhigh⟩
  offset := by
    intro r hr
    obtain ⟨i, -, rfl⟩ := List.mem_map.mp hr
    rfl

theorem sum_requests {size chunk : Nat} (hc : 0 < chunk) :
    (((List.range (count size chunk)).map (request size chunk)).map (·.count)).sum = size := by
  rw [List.map_map]
  exact sum_length hc

end NFSKit.NFSClient
