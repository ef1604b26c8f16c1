import Mathlib.Data.List.Pairwise
import NFSKit.Proofs.ContentsProofs

/-!
# Proofs: what `contents` returns

The bytes of the buffer, for every order of the completions, and of the chunked path: both are the
beginning of the file as long as every read of the buffer fills its request.
-/

namespace NFSKit.NFSClient

open Checked Chunks

/-! ## The buffer -/

section Buffer

variable {file : List UInt8} {cs : List Completion} {b : Buffer} {k size : Nat}
  {requests : List ReadRequest}

/-- The child has written byte `k` of the buffer. -/
def Completion.Wrote (c : Completion) (k : Nat) : Prop :=
  ∃ n, c.result = .ok n ∧ c.request.byteOffset ≤ k ∧ k < c.request.byteOffset + n

theorem complete_of_not_wrote {c : Completion} (h : ¬c.Wrote k) : Buffer.complete file b c k = b k := by
  unfold Buffer.complete
  cases hresult : c.result with
  | ok n => exact if_neg fun hk => h ⟨n, hresult, hk⟩
  | error e => rfl

theorem complete_of_wrote {c : Completion} (h : c.Wrote k)
    (hoffset : c.request.offset = c.request.byteOffset) : Buffer.complete file b c k = file[k]? := by
  obtain ⟨n, hn, hlow, hhigh⟩ := h
  unfold Buffer.complete
  rw [hn]
  have hk : c.request.offset + (k - c.request.byteOffset) = k := by omega
  exact (if_pos ⟨hlow, hhigh⟩).trans (by rw [hk])

/-- A byte that no child has written stays as it was. -/
theorem foldl_complete_of_not_wrote (h : ∀ c ∈ cs, ¬c.Wrote k) :
    cs.foldl (Buffer.complete file) b k = b k := by
  induction cs generalizing b with
  | nil => rfl
  | cons c cs ih =>
    obtain ⟨hc, hcs⟩ := List.forall_mem_cons.mp h
    rw [List.foldl_cons, ih hcs]
    exact complete_of_not_wrote hc

/-- A byte that some child has written is that of the file, whatever the order. -/
theorem foldl_complete_of_wrote (hoffset : ∀ c ∈ cs, c.request.offset = c.request.byteOffset)
    (h : ∃ c ∈ cs, c.Wrote k) : cs.foldl (Buffer.complete file) b k = file[k]? := by
  induction cs generalizing b with
  | nil =>
    obtain ⟨c, hc, -⟩ := h
    cases hc
  | cons c cs ih =>
    obtain ⟨hoffset, hoffsets⟩ := List.forall_mem_cons.mp hoffset
    rw [List.foldl_cons]
    by_cases hlater : ∃ c ∈ cs, c.Wrote k
    · exact ih hoffsets hlater
    · rw [foldl_complete_of_not_wrote fun d hd hw => hlater ⟨d, hd, hw⟩]
      obtain ⟨d, hd, hw⟩ := h
      rcases List.mem_cons.mp hd with rfl | hd
      · exact complete_of_wrote hw hoffset
      · exact absurd ⟨d, hd, hw⟩ hlater

/-- The request of every child is one of the reads. -/
theorem mem_requests (hperm : (cs.map (·.request)).Perm requests) {c : Completion} (hc : c ∈ cs) :
    c.request ∈ requests :=
  hperm.mem_iff.mp (List.mem_map_of_mem hc)

/-- Every byte of the buffer is in the slice of some child. -/
theorem exists_covering (hslices : Slices size requests)
    (hperm : (cs.map (·.request)).Perm requests) (hk : k < size) :
    ∃ c ∈ cs, c.request.Covers k := by
  obtain ⟨r, hr, hcovers⟩ := hslices.cover k hk
  obtain ⟨c, hc, rfl⟩ := List.mem_map.mp (hperm.mem_iff.mpr hr)
  exact ⟨c, hc, hcovers⟩

/-- Two children do not share a byte. -/
theorem eq_of_covers (hslices : Slices size requests)
    (hperm : (cs.map (·.request)).Perm requests) {c d : Completion} (hc : c ∈ cs) (hd : d ∈ cs)
    (hck : c.request.Covers k) (hdk : d.request.Covers k) : c = d := by
  have hdisjoint : cs.Pairwise fun c d => ∀ k, ¬(c.request.Covers k ∧ d.request.Covers k) := by
    refine List.pairwise_map.mp (hperm.symm.pairwise hslices.disjoint ?_)
    intro r r' h k hk
    exact h k hk.symm
  have hsymm : Std.Symm fun c d : Completion => ∀ k, ¬(c.request.Covers k ∧ d.request.Covers k) :=
    ⟨fun c d h k hk => h k hk.symm⟩
  by_contra hne
  exact hdisjoint.forall hc hd hne k ⟨hck, hdk⟩

/-- When every child has filled its slice, the buffer is the beginning of the file. -/
theorem buffer_of_filled (hslices : Slices size requests)
    (hperm : (cs.map (·.request)).Perm requests) (hfull : ∀ c ∈ cs, c.result = .ok c.request.count)
    (hsize : size ≤ file.length) :
    (List.range size).map (cs.foldl (Buffer.complete file) b) = (file.take size).map some := by
  refine List.ext_getElem (by simp [hsize]) ?_
  intro k hk _
  have hk : k < size := by simpa using hk
  obtain ⟨c, hc, hcovers⟩ := exists_covering hslices hperm hk
  have hwrote : ∃ c ∈ cs, c.Wrote k := ⟨c, hc, c.request.count, hfull c hc, hcovers⟩
  have hoffset : ∀ c ∈ cs, c.request.offset = c.request.byteOffset :=
    fun c hc => hslices.offset _ (mem_requests hperm hc)
  simp only [List.getElem_map, List.getElem_range, List.getElem_take]
  rw [foldl_complete_of_wrote hoffset hwrote, List.getElem?_eq_getElem]

end Buffer

section Preallocated

variable {file : List UInt8} {size : Nat} {readMax : Int} {progress : Option Progress}
  {cs : List Completion} {data : Contents} {requests : List ReadRequest}

/-- The data are the whole buffer, and every child has ended well. -/
theorem data_of_ok (h : (contentsUsingPreallocatedBuffer file size progress cs).result = .ok data) :
    data = (List.range size).map (cs.foldl (Buffer.complete file) fun _ => none) ∧
      ∀ c ∈ cs, ∃ n, c.result = .ok n := by
  unfold contentsUsingPreallocatedBuffer at h
  dsimp only at h
  cases hthrown : (awaitReads progress size {} cs).thrown with
  | none =>
    rw [hthrown] at h
    exact ⟨(Except.ok.inj h).symm, ok_of_not_thrown hthrown⟩
  | some e =>
    rw [hthrown] at h
    cases h

/-- Without a handler the call ends well if every child does. -/
theorem thrown_of_no_handler {fileSize : Int} {c : Collector} (hc : c.cancelledByProgress = false)
    (h : ∀ child ∈ cs, ∃ n, child.result = .ok n) : (awaitReads none fileSize c cs).thrown = none := by
  induction cs generalizing c with
  | nil => simp [awaitReads, finishBody, hc]
  | cons child cs ih =>
    obtain ⟨⟨n, hn⟩, hcs⟩ := List.forall_mem_cons.mp h
    obtain ⟨r, result⟩ := child
    obtain rfl : result = .ok n := hn
    have hrest := ih (c := { c with totalBytesRead := c.totalBytesRead + n }) hc hcs
    rw [awaitReads]
    simpa [Collector.report] using hrest

/-- The running totals of positive numbers grow. -/
theorem totals_increasing {counts : List Nat} (h : ∀ n ∈ counts, 0 < n) (total : Nat) :
    (totals total counts).Pairwise (· < ·) ∧ ∀ t ∈ totals total counts, total < t := by
  induction counts generalizing total with
  | nil => simp [totals]
  | cons n counts ih =>
    obtain ⟨hn, hcounts⟩ := List.forall_mem_cons.mp h
    obtain ⟨hpair, habove⟩ := ih hcounts (total + n)
    refine ⟨List.pairwise_cons.mpr ⟨habove, hpair⟩, ?_⟩
    intro t ht
    rcases List.mem_cons.mp ht with rfl | ht
    · omega
    · have := habove t ht
      omega

/-- The last running total is the sum. -/
theorem totals_getLast? {counts : List Nat} (h : counts ≠ []) (total : Nat) :
    (totals total counts).getLast? = some (total + counts.sum) := by
  have hlast : (totals total counts)[counts.length - 1]? = some (total + counts.sum) := by
    have := List.length_pos_of_ne_nil h
    rw [totals_getElem? total counts _ (by omega), Nat.sub_add_cancel this, List.take_length]
  rw [List.getLast?_eq_getElem?, totals_length, hlast]

/-- What a handler that never cancels is told when every child has filled its slice. -/
theorem reported_filled {handler : Progress} {chunk : Nat} (hc : 0 < chunk) (hsize : 0 < size)
    (hperm : (cs.map (·.request)).Perm ((List.range (count size chunk)).map (request size chunk)))
    (hfull : ∀ c ∈ cs, c.result = .ok c.request.count)
    (hgo : ∀ (n : Nat) (v : Int),
      (contentsUsingPreallocatedBuffer file size (some handler) cs).reported[n]? = some v →
        handler n v size = true) :
    (∃ data, (contentsUsingPreallocatedBuffer file size (some handler) cs).result = .ok data) ∧
      (contentsUsingPreallocatedBuffer file size (some handler) cs).reported.Pairwise (· < ·) ∧
      (contentsUsingPreallocatedBuffer file size (some handler) cs).reported.getLast?
        = some (size : Int) := by
  obtain ⟨before, hbefore, rfl | ⟨r, result, rest, rfl, hstop⟩⟩ := exists_before handler size 0 0 cs
  swap
  · obtain rfl : result = .ok r.count := hfull ⟨r, result⟩ (by simp)
    have hstop : handler before.length (((before.map (·.2)).sum + r.count : Nat) : Int) size
        = false := by simpa using hstop r.count rfl
    obtain ⟨-, hreported⟩ := exit_of_stop file r rest hbefore hstop
    have hlast := hgo before.length ((before.map (·.2)).sum + r.count : Nat)
      (by rw [hreported]; simp)
    rw [hstop] at hlast
    cases hlast
  obtain ⟨hresult, hreported⟩ := exit_of_goesOn file hbefore
  have hcounts : (before.map (·.2)).Perm
      (((List.range (count size chunk)).map (request size chunk)).map (·.count)) := by
    have hcount : before.map (·.2) = before.map (·.1.count) := by
      refine List.map_congr_left fun b hb => ?_
      exact Except.ok.inj (hfull ⟨b.1, .ok b.2⟩ (List.mem_map_of_mem hb))
    have := hperm.map (·.count)
    rw [List.map_map, List.map_map] at this
    rw [hcount]
    exact this
  have hsum := hcounts.sum_eq.trans (sum_requests hc)
  have hpos : ∀ n ∈ before.map (·.2), 0 < n := by
    intro n hn
    obtain ⟨r, hr, rfl⟩ := List.mem_map.mp (hcounts.mem_iff.mp hn)
    exact (slices_requests hc).nonempty r hr
  have hne : before.map (·.2) ≠ [] := by
    intro hnil
    rw [hnil] at hsum
    exact absurd hsum.symm (Nat.ne_of_gt hsize)
  refine ⟨⟨_, hresult⟩, ?_, ?_⟩
  · rw [hreported]
    exact (totals_increasing hpos 0).1.map _ fun a b hab => Int.ofNat_lt.mpr hab
  · rw [hreported, List.getLast?_map, totals_getLast? hne, hsum, Nat.zero_add]
    rfl

/-- A size the pre-allocated path is used for. -/
theorem size_of_preallocated (hsize : shouldUsePreallocatedBuffer size) :
    0 < size ∧ size ≤ 67108864 := by
  have : 0 < (size : Int) ∧ (size : Int) ≤ 67108864 := by
    simpa [shouldUsePreallocatedBuffer, contentsBufferThreshold] using hsize
  omega

/-- The pre-allocated path divides the buffer among its reads, and if each of them fills its request it
returns the beginning of the file, and a handler that never cancels sees growing totals up to the size. -/
theorem preallocated_filled (hsize : shouldUsePreallocatedBuffer size) (hmax : 1 ≤ readMax) :
    ∃ requests, readRequests readMax size = some requests ∧ Slices size requests ∧
      ∀ (file : List UInt8) (cs : List Completion) (progress : Option Progress),
        size ≤ file.length → (cs.map (·.request)).Perm requests →
        (∀ c ∈ cs, c.result = .ok c.request.count) →
        (∀ data, (contentsUsingPreallocatedBuffer file size progress cs).result = .ok data →
          data = (file.take size).map some) ∧
        (progress = none →
          ∃ data, (contentsUsingPreallocatedBuffer file size progress cs).result = .ok data) ∧
        ∀ handler, progress = some handler →
          (∀ (n : Nat) (v : Int),
            (contentsUsingPreallocatedBuffer file size progress cs).reported[n]? = some v →
              handler n v size = true) →
          (∃ data, (contentsUsingPreallocatedBuffer file size progress cs).result = .ok data) ∧
          (contentsUsingPreallocatedBuffer file size progress cs).reported.Pairwise (· < ·) ∧
          (contentsUsingPreallocatedBuffer file size progress cs).reported.getLast?
            = some (size : Int) := by
  obtain ⟨h0, hle⟩ := size_of_preallocated hsize
  obtain ⟨chunk, hc, -, hlist⟩ := readRequests_eq hmax hle
  have hslices := @slices_requests size chunk hc
  refine ⟨_, hlist, hslices, ?_⟩
  intro file cs progress hfile hperm hfull
  have hbuffer := buffer_of_filled (b := fun _ => none) hslices hperm hfull hfile
  refine ⟨?_, ?_, ?_⟩
  · intro data hdata
    rw [(data_of_ok hdata).1, hbuffer]
  · rintro rfl
    have hthrown := @thrown_of_no_handler cs size {} rfl fun c hc => ⟨_, hfull c hc⟩
    unfold contentsUsingPreallocatedBuffer
    dsimp only
    rw [hthrown]
    exact ⟨_, rfl⟩
  · rintro handler rfl hgo
    exact reported_filled hc h0 hperm hfull hgo

/-- A file of five bytes, read two at a time, with the last read first. -/
theorem preallocated_filled_five :
    (contentsUsingPreallocatedBuffer [1, 2, 3, 4, 5] 5 none
      [⟨⟨2, 4, 4, 1⟩, .ok 1⟩, ⟨⟨0, 0, 0, 2⟩, .ok 2⟩, ⟨⟨1, 2, 2, 2⟩, .ok 2⟩]).result
      = .ok [some 1, some 2, some 3, some 4, some 5] := by
  obtain ⟨requests, hrequests, -, h⟩ :=
    @preallocated_filled 5 2 (by decide) (by decide)
  obtain rfl : requests = [⟨0, 0, 0, 2⟩, ⟨1, 2, 2, 2⟩, ⟨2, 4, 4, 1⟩] :=
    Option.some.inj (hrequests.symm.trans (by decide))
  obtain ⟨hdata, hok, -⟩ := h [1, 2, 3, 4, 5]
    [⟨⟨2, 4, 4, 1⟩, .ok 1⟩, ⟨⟨0, 0, 0, 2⟩, .ok 2⟩, ⟨⟨1, 2, 2, 2⟩, .ok 2⟩] none (by decide)
    (by decide) (by simp)
  obtain ⟨data, hresult⟩ := hok rfl
  rw [hresult, hdata data hresult]
  rfl

end Preallocated

/-! ## Short reads -/

section ShortReads

variable {file : List UInt8} {size : Nat} {readMax : Int} {progress : Option Progress}
  {cs : List Completion} {data : Contents} {requests : List ReadRequest} {exit : ReadExit}

/-- A read of `requested` bytes, of which the file has `available`, returns `n`: some of them, and none
only at the end of the file. -/
def ReadsPrefix (requested available n : Nat) : Prop :=
  n ≤ requested ∧ n ≤ available ∧ (n = 0 → available = 0)

/-- The reads of the chunked path, from `offset` on, return what a file can give. -/
def ReadsFrom (file : List UInt8) (size : Nat) :
    Nat → List (Except POSIXErrorCode Nat) → Prop
  | _, [] => True
  | _, .error _ :: _ => True
  | offset, .ok n :: rest => offset < size →
    ReadsPrefix (min 1048576 (size - offset)) (file.length - offset) n ∧
      ReadsFrom file size (offset + n) rest

/-- If a read has left the end of its slice, a byte there was never written. -/
theorem buffer_of_short (hslices : Slices size requests)
    (hperm : (cs.map (·.request)).Perm requests)
    (hinside : ∀ c ∈ cs, ∀ n, c.result = .ok n → n ≤ c.request.count) {c : Completion} (hc : c ∈ cs)
    {n : Nat} (hn : c.result = .ok n) (hshort : n < c.request.count) :
    cs.foldl (Buffer.complete file) (fun _ => none) (c.request.byteOffset + n) = none := by
  refine foldl_complete_of_not_wrote ?_
  rintro d hd ⟨m, hm, hlow, hhigh⟩
  have hcovers : c.request.Covers (c.request.byteOffset + n) := ⟨by omega, by omega⟩
  have hcovers' : d.request.Covers (c.request.byteOffset + n) := by
    have := hinside d hd m hm
    exact ⟨hlow, by omega⟩
  obtain rfl := eq_of_covers hslices hperm hc hd hcovers hcovers'
  obtain rfl : n = m := Except.ok.inj (hn.symm.trans hm)
  omega

/-- The pre-allocated path returns the beginning of the file exactly if every read fills its slice. -/
theorem preallocated_exact_iff (hslices : Slices size requests)
    (hperm : (cs.map (·.request)).Perm requests)
    (hreads : ∀ c ∈ cs, ∀ n, c.result = .ok n →
      ReadsPrefix c.request.count (file.length - c.request.offset) n)
    (hok : (contentsUsingPreallocatedBuffer file size progress cs).result = .ok data) :
    data = (file.take (min size file.length)).map some ↔
      ∀ c ∈ cs, c.result = .ok c.request.count := by
  obtain ⟨hdata, hends⟩ := data_of_ok hok
  constructor
  · intro heq c hc
    obtain ⟨n, hn⟩ := hends c hc
    by_contra hne
    have hshort : n < c.request.count := by
      have := (hreads c hc n hn).1
      rcases Nat.lt_or_eq_of_le this with hlt | rfl
      · exact hlt
      · exact absurd hn hne
    have hunwritten : cs.foldl (Buffer.complete file) (fun _ => none) (c.request.byteOffset + n)
        = none :=
      buffer_of_short hslices hperm (fun c hc n hn => (hreads c hc n hn).1) hc hn hshort
    have hinside := hslices.inside _ (mem_requests hperm hc)
    have hget : data[c.request.byteOffset + n]? = some none := by
      rw [hdata, List.getElem?_map, List.getElem?_range (by omega), Option.map_some, hunwritten]
    rw [heq, List.getElem?_map] at hget
    obtain ⟨x, -, hx⟩ := Option.map_eq_some_iff.mp hget
    cases hx
  · intro hfull
    have hlong : size ≤ file.length := by
      rcases Nat.eq_zero_or_pos size with rfl | hpos
      · exact Nat.zero_le _
      · obtain ⟨c, hc, -, hlast⟩ : ∃ c ∈ cs, c.request.Covers (size - 1) :=
          exists_covering hslices hperm (by omega)
        have hread := (hreads c hc _ (hfull c hc)).2.1
        have hpos := hslices.nonempty _ (mem_requests hperm hc)
        rw [hslices.offset _ (mem_requests hperm hc)] at hread
        omega
    rw [hdata, buffer_of_filled hslices hperm hfull hlong, Nat.min_eq_left hlong]

/-- The chunked path returns the beginning of the file. -/
theorem legacy_exact {reads : List (Except POSIXErrorCode Nat)} {offset : Nat} {reported : List Int}
    (hoffset : offset ≤ size) (hfile : offset ≤ file.length)
    (hreads : ReadsFrom file size offset reads)
    (hexit : contentsUsingLegacyChunkedRead file size progress offset (file.take offset) reported
      reads = some exit) (hok : exit.result = .ok data) :
    data = (file.take (min size file.length)).map some := by
  induction reads generalizing offset reported with
  | nil =>
    unfold contentsUsingLegacyChunkedRead at hexit
    split at hexit
    · cases hexit
    · obtain rfl := Option.some.inj hexit
      rw [← Except.ok.inj hok, show min size file.length = offset by omega]
  | cons result rest ih =>
    unfold contentsUsingLegacyChunkedRead at hexit
    by_cases hmore : offset < size
    · rw [if_pos hmore] at hexit
      cases result with
      | error e =>
        obtain rfl := Option.some.inj hexit
        cases hok
      | ok n =>
        obtain ⟨⟨hrequest, havailable, hend⟩, hrest⟩ := hreads hmore
        have hlength : (file.take offset).length = offset := by
          rw [List.length_take]
          omega
        have hchunk : ((file.drop offset).take n).length = n := by
          rw [List.length_take, List.length_drop]
          omega
        have hdata : file.take offset ++ (file.drop offset).take n = file.take (offset + n) :=
          (List.take_add ..).symm
        have hnext := fun reported => @ih (offset + n) reported (by omega) (by omega) hrest
        dsimp only at hexit
        rw [hlength, hchunk, hdata] at hexit
        split at hexit
        · rename_i hempty
          have hzero : n = 0 := by
            rw [List.isEmpty_iff.mp hempty] at hchunk
            exact hchunk.symm
          obtain rfl := Option.some.inj hexit
          have := hend hzero
          rw [← Except.ok.inj hok, show min size file.length = offset by omega]
        · split at hexit
          · exact hnext _ hexit
          · split at hexit
            · exact hnext _ hexit
            · obtain rfl := Option.some.inj hexit
              cases hok
    · rw [if_neg hmore] at hexit
      obtain rfl := Option.some.inj hexit
      rw [← Except.ok.inj hok, show min size file.length = offset by omega]

/-- `contents` returns the beginning of the file exactly if it takes the chunked path or every read of
the buffer fills its slice. -/
theorem contents_exact_iff {reads : List (Except POSIXErrorCode Nat)} (hsize : 0 < size)
    (hmax : 1 ≤ readMax)
    (hchildren : shouldUsePreallocatedBuffer size → ∃ requests,
      readRequests readMax size = some requests ∧ (cs.map (·.request)).Perm requests ∧
        ∀ c ∈ cs, ∀ n, c.result = .ok n →
          ReadsPrefix c.request.count (file.length - c.request.offset) n)
    (hreads : ReadsFrom file size 0 reads)
    (hexit : contents file size progress cs reads = some exit) (hok : exit.result = .ok data) :
    data = (file.take (min size file.length)).map some ↔
      ¬shouldUsePreallocatedBuffer size ∨ ∀ c ∈ cs, c.result = .ok c.request.count := by
  unfold contents at hexit
  rw [if_neg (by omega)] at hexit
  by_cases hpre : shouldUsePreallocatedBuffer size
  · rw [if_pos hpre] at hexit
    obtain rfl := Option.some.inj hexit
    obtain ⟨requests, hlist, hperm, hprefix⟩ := hchildren hpre
    obtain ⟨chunk, hc, -, hlist'⟩ := readRequests_eq hmax (size_of_preallocated hpre).2
    obtain rfl := Option.some.inj (hlist.symm.trans hlist')
    rw [preallocated_exact_iff (slices_requests hc) hperm hprefix hok]
    simp [hpre]
  · rw [if_neg hpre] at hexit
    exact iff_of_true (legacy_exact (Nat.zero_le _) (Nat.zero_le _) hreads hexit hok) (Or.inl hpre)

/-- A file of five bytes, read in three pieces that arrive out of order. -/
theorem contents_exact_five :
    ([some 1, some 2, some 3, some 4, some 5] : Contents) =
      (([1, 2, 3, 4, 5] : List UInt8).take (min 5 5)).map some := by
  refine (@contents_exact_iff [1, 2, 3, 4, 5] 5 2 none
    [⟨⟨2, 4, 4, 1⟩, .ok 1⟩, ⟨⟨0, 0, 0, 2⟩, .ok 2⟩, ⟨⟨1, 2, 2, 2⟩, .ok 2⟩] _ _ [] (by decide)
    (by decide) ?_ trivial rfl rfl).mpr (Or.inr (by simp))
  intro _
  refine ⟨[⟨0, 0, 0, 2⟩, ⟨1, 2, 2, 2⟩, ⟨2, 4, 4, 1⟩], by decide, by decide, ?_⟩
  simp [ReadsPrefix]

/-- A file that has shrunk to one byte after its size was asked for: the second byte of the result was
never written. -/
theorem contents_unwritten :
    ¬∀ (file : List UInt8) (size : Nat) (readMax : Int) (cs : List Completion)
      (requests : List ReadRequest) (exit : ReadExit) (data : Contents), 0 < size → 1 ≤ readMax →
        readRequests readMax size = some requests → (cs.map (·.request)).Perm requests →
        (∀ c ∈ cs, ∀ n, c.result = .ok n →
          ReadsPrefix c.request.count (file.length - c.request.offset) n) →
        contents file size none cs [] = some exit → exit.result = .ok data →
        data = (file.take (min size file.length)).map some := by
  intro h
  have hdata := h [1] 2 4194304 [⟨⟨0, 0, 0, 2⟩, .ok 1⟩] [⟨0, 0, 0, 2⟩] _ _ (by decide) (by decide)
    (by decide) (by decide) (by simp [ReadsPrefix]) rfl rfl
  exact absurd hdata (by decide)

end ShortReads

end NFSKit.NFSClient
