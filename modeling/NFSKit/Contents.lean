import NFSKit.Foundations.Checked
import NFSKit.POSIXError

/-!
# Reading and writing whole files

`contents(atPath:progress:)` and `write(data:toPath:progress:)` of `NFSClient`, from the moment the file
is open. What the server answers is an argument: the results of the reads in the order in which they
complete, or of the writes. The calling task is not cancelled from outside.

A progress handler may keep a state of its own, so its answer also depends on how often it has been
called before.
-/

namespace NFSKit

open Checked

/-- A `progress` closure, by the number of its earlier calls and its arguments. -/
abbrev Progress := Nat → Int → Int → Bool

namespace NFSClient

/-- `contentsBufferThreshold`. -/
def contentsBufferThreshold : Int := 67108864

def shouldUsePreallocatedBuffer (fileSize : Int) : Bool :=
  fileSize > 0 ∧ fileSize ≤ contentsBufferThreshold

/-! ## The reads of the pre-allocated path -/

/-- One `preadIntoBuffer`: the slice of the buffer at `byteOffset` is filled from the file. -/
structure ReadRequest where
  chunkIndex : Nat
  byteOffset : Nat
  offset : Nat
  count : Nat
deriving DecidableEq, Repr

/-- `min(getReadMax(), 4 * 1024 * 1024)`. -/
def chunkSize (readMax : Int) : Int := min readMax 4194304

/-- `(totalBytes + chunkSize - 1) / chunkSize`. -/
def totalChunks (totalBytes chunkSize : Int) : Option Int := do
  let sum ← IntType.int64.add totalBytes chunkSize
  let sum ← IntType.int64.sub sum 1
  IntType.int64.div sum chunkSize

/-- The body of the loop over the chunks. -/
def readRequest (totalBytes chunkSize : Int) (chunkIndex : Nat) : Option ReadRequest := do
  let byteOffset ← IntType.int64.mul chunkIndex chunkSize
  let remaining ← IntType.int64.sub totalBytes byteOffset
  let readCount := min chunkSize remaining
  let offset ← IntType.uint64.convert byteOffset
  let count ← IntType.uint64.convert readCount
  some ⟨chunkIndex, byteOffset.toNat, offset.toNat, count.toNat⟩

/-- The loop over the chunks from `chunkIndex` on; `n` of them are left. -/
def readRequestsFrom (totalBytes chunkSize : Int) (chunkIndex : Nat) : Nat → Option (List ReadRequest)
  | 0 => some []
  | n + 1 => do
    let request ← readRequest totalBytes chunkSize chunkIndex
    let rest ← readRequestsFrom totalBytes chunkSize (chunkIndex + 1) n
    some (request :: rest)

/-- The reads of `contentsUsingPreallocatedBuffer`; `none` if its arithmetic traps. -/
def readRequests (readMax fileSize : Int) : Option (List ReadRequest) := do
  let totalBytes ← IntType.int64.convert fileSize
  let totalChunks ← totalChunks totalBytes (chunkSize readMax)
  -- the range `0..<totalChunks` is formed only if its bounds are in order
  if totalChunks < 0 then none
  else readRequestsFrom totalBytes (chunkSize readMax) 0 totalChunks.toNat

/-! ## The task group -/

/-- A child of the task group has finished: its read has filled so many bytes, or failed. -/
structure Completion where
  request : ReadRequest
  result : Except POSIXErrorCode Nat

/-- The variables of the loop that awaits the children, and the values passed to `progress` so far. -/
structure Collector where
  totalBytesRead : Nat := 0
  cancelledByProgress : Bool := false
  reported : List Int := []

/-- How the body of the task group ends, and the children it has not awaited itself. -/
structure BodyExit where
  thrown : Option POSIXErrorCode
  collector : Collector
  left : List Completion

/-- After the loop. -/
def finishBody (c : Collector) : BodyExit :=
  ⟨if c.cancelledByProgress then some .ECANCELED else none, c, []⟩

/-- The condition of the `if` in the loop: `progress` is called unless it has cancelled before. The
result says whether it cancels now. -/
def Collector.report (progress : Option Progress) (fileSize : Int) (c : Collector) :
    Collector × Bool :=
  match c.cancelledByProgress, progress with
  | false, some handler =>
    ({ c with reported := c.reported ++ [(c.totalBytesRead : Int)] },
      !handler c.reported.length c.totalBytesRead fileSize)
  | _, _ => (c, false)

mutual

/-- `for try await (_, bytesRead) in group`, over the children in the order in which they finish. -/
def awaitReads (progress : Option Progress) (fileSize : Int) (c : Collector) :
    List Completion → BodyExit
  | [] => finishBody c
  | ⟨_, .error e⟩ :: rest => ⟨some e, c, rest⟩
  | ⟨_, .ok bytesRead⟩ :: rest =>
    let (c, cancels) := { c with totalBytesRead := c.totalBytesRead + bytesRead }.report progress fileSize
    if cancels then drainReads progress fileSize { c with cancelledByProgress := true } rest
    else awaitReads progress fileSize c rest

/-- `do { for try await _ in group { } } catch { }`, and the outer loop after it. -/
def drainReads (progress : Option Progress) (fileSize : Int) (c : Collector) :
    List Completion → BodyExit
  | [] => finishBody c
  | ⟨_, .ok _⟩ :: rest => drainReads progress fileSize c rest
  | ⟨_, .error _⟩ :: rest => awaitReads progress fileSize c rest

end

/-! ## The buffer -/

/-- The bytes of a `ReadBuffer`; `none` is memory that was never written. -/
abbrev Buffer := Nat → Option UInt8

/-- `bytesRead` bytes of the file have been written to the slice of the request. -/
def Buffer.fill (b : Buffer) (file : List UInt8) (r : ReadRequest) (bytesRead : Nat) : Buffer :=
  fun i =>
    if r.byteOffset ≤ i ∧ i < r.byteOffset + bytesRead then file[r.offset + (i - r.byteOffset)]?
    else b i

/-- What the child has written to its slice. -/
def Buffer.complete (file : List UInt8) (b : Buffer) (c : Completion) : Buffer :=
  match c.result with
  | .ok bytesRead => b.fill file c.request bytesRead
  | .error _ => b

/-- A `Data` value: the bytes of a file, or memory that was never written. -/
abbrev Contents := List (Option UInt8)

/-- What a call has thrown or returned, the values passed to `progress`, and the children of its task
group that have been awaited. -/
structure ReadExit where
  result : Except POSIXErrorCode Contents
  reported : List Int
  awaited : List Completion

/-- `contentsUsingPreallocatedBuffer`, where the children finish in the order of `completions`. The
task group awaits whatever its body has left before the call goes on. -/
def contentsUsingPreallocatedBuffer (file : List UInt8) (fileSize : Nat) (progress : Option Progress)
    (completions : List Completion) : ReadExit :=
  let body := awaitReads progress fileSize {} completions
  let consumed := completions.take (completions.length - body.left.length)
  let buffer := completions.foldl (Buffer.complete file) fun _ => none
  { result :=
      match body.thrown with
      | some e => .error e
      | none => .ok ((List.range fileSize).map buffer)
    reported := body.collector.reported
    awaited := consumed ++ body.left }

/-! ## The chunked path -/

/-- `contentsUsingLegacyChunkedRead`, where `reads` are the results of the reads: how many bytes each
returns from the position of the handle on. It is `none` while a read is outstanding. -/
def contentsUsingLegacyChunkedRead (file : List UInt8) (fileSize : Nat) (progress : Option Progress)
    (offset : Nat) (data : List UInt8) (reported : List Int) :
    List (Except POSIXErrorCode Nat) → Option ReadExit
  | [] => if offset < fileSize then none else some ⟨.ok (data.map some), reported, []⟩
  | result :: rest =>
    if offset < fileSize then
      match result with
      | .error e => some ⟨.error e, reported, []⟩
      | .ok bytesRead =>
        let chunk := (file.drop data.length).take bytesRead
        if chunk.isEmpty then some ⟨.ok (data.map some), reported, []⟩
        else
          let data := data ++ chunk
          let offset := offset + chunk.length
          match progress with
          | none => contentsUsingLegacyChunkedRead file fileSize progress offset data reported rest
          | some p =>
            if p reported.length offset fileSize then
              contentsUsingLegacyChunkedRead file fileSize progress offset data
                (reported ++ [(offset : Int)]) rest
            else some ⟨.error .ECANCELED, reported ++ [(offset : Int)], []⟩
    else some ⟨.ok (data.map some), reported, []⟩

/-- `contents(atPath:progress:)`, after `fstat` has reported `fileSize`. -/
def contents (file : List UInt8) (fileSize : Nat) (progress : Option Progress)
    (completions : List Completion) (reads : List (Except POSIXErrorCode Nat)) : Option ReadExit :=
  if fileSize = 0 then some ⟨.ok [], [], []⟩
  else if shouldUsePreallocatedBuffer fileSize then
    some (contentsUsingPreallocatedBuffer file fileSize progress completions)
  else contentsUsingLegacyChunkedRead file fileSize progress 0 [] [] reads

/-! ## Writing -/

/-- How a call of `handle.write` ends. -/
inductive WriteResult where
  /-- The server has accepted so many bytes of the chunk. -/
  | accepted (n : Nat)
  /-- The call throws. The server may have a beginning of the chunk all the same: libnfs sends what a
  short WRITE has left again, and that may fail; and a WRITE that timed out may still arrive. -/
  | failed (error : POSIXErrorCode) (kept : Nat)
deriving DecidableEq

/-- How a call of `write` ends, the file on the server, and the values passed to `progress`. -/
structure WriteExit where
  thrown : Option POSIXErrorCode
  file : List UInt8
  reported : List Int

/-- The `while` loop of `write`, where `writes` are the results of `handle.write`; the server appends what
it takes of a chunk to the file. After the loop, `fsync` ends the call with its own result. It is `none`
while a write is outstanding. -/
def writeFrom (data : List UInt8) (progress : Option (Nat → Int → Bool))
    (fsync : Option POSIXErrorCode) (offset : Nat) (file : List UInt8) (reported : List Int) :
    List WriteResult → Option WriteExit
  | [] => if offset < data.length then none else some ⟨fsync, file, reported⟩
  | result :: rest =>
    if offset < data.length then
      let «end» := min (offset + 1048576) data.length
      let chunk := (data.take «end»).drop offset
      match result with
      | .failed e kept => some ⟨some e, file ++ chunk.take kept, reported⟩
      | .accepted n =>
        let file := file ++ chunk.take n
        let offset := «end»
        match progress with
        | none => writeFrom data progress fsync offset file reported rest
        | some p =>
          if p reported.length offset then
            writeFrom data progress fsync offset file (reported ++ [(offset : Int)]) rest
          else some ⟨some .ECANCELED, file, reported ++ [(offset : Int)]⟩
    else some ⟨fsync, file, reported⟩

/-- `write(data:toPath:progress:)`, after the file has been opened and truncated. -/
def write (data : List UInt8) (progress : Option (Nat → Int → Bool)) (fsync : Option POSIXErrorCode)
    (writes : List WriteResult) : Option WriteExit :=
  writeFrom data progress fsync 0 [] [] writes

end NFSClient

end NFSKit
