import Mathlib.Data.Finset.Basic
import NFSKit.Contents
import NFSKit.Foundations.AssocList

/-!
# Batches of operations

`OperationBatch.swift`: the chunks of a transfer, from the pending queue through the in-flight set to the
assembled data. In legacy mode each chunk delivers its own `Data`; in buffer-slice mode the chunks are
written into one buffer, and only their byte counts are recorded.
-/

namespace NFSKit

open Checked NFSClient

/-! ## The buffer -/

/-- A `ReadBuffer` without its memory. Its size is a Swift `Int`. -/
structure ReadBuffer where
  size : Nat
  size_lt : size < 2 ^ 63
  isOwned : Bool := true

/-- `disown`: `deinit` no longer deallocates. -/
def ReadBuffer.disown (b : ReadBuffer) : ReadBuffer := { b with isOwned := false }

/-! ## The batch -/

/-- The lifecycle state of a batch; `ε` are the errors. -/
inductive OperationBatch.State (ε : Type) where
  | active
  /-- Pending operations are drained; in-flight callbacks are discarded. -/
  | cancelled (reason : ε)
  | completed
deriving DecidableEq, Repr

/-- `Array(0..<n)`. -/
def chunkIndices (n : Nat) : List Int := (List.range n).map Int.ofNat

structure OperationBatch (ε : Type) where
  state : OperationBatch.State ε := .active
  /-- Not yet issued. -/
  pendingChunkIndices : List Int
  /-- Issued, without a callback so far. -/
  inFlightChunkIndices : Finset Int := ∅
  /-- Legacy mode only. -/
  completedChunks : List (Int × List UInt8) := []
  totalChunks : Nat
  /-- `none` in legacy mode. -/
  sliceBuffer : Option ReadBuffer := none
  sliceChunkSize : Int := 0
  /-- Buffer-slice mode only. -/
  completedSliceByteCounts : List (Int × Int) := []

namespace OperationBatch

variable {ε : Type}

/-- `init(batchID:totalChunks:)`; a negative number of chunks traps. -/
def legacy (totalChunks : Nat) : OperationBatch ε :=
  { totalChunks, pendingChunkIndices := chunkIndices totalChunks }

/-- `init(batchID:totalChunks:buffer:chunkSize:)`. -/
def sliced (totalChunks : Nat) (buffer : ReadBuffer) (chunkSize : Int) : OperationBatch ε :=
  { totalChunks, sliceBuffer := some buffer, sliceChunkSize := chunkSize
    pendingChunkIndices := chunkIndices totalChunks }

/-- The next pending chunk goes in flight. -/
def dequeueNextChunk (b : OperationBatch ε) : Option Int × OperationBatch ε :=
  match b.state, b.pendingChunkIndices with
  | .active, index :: rest =>
    (some index, { b with
      pendingChunkIndices := rest
      inFlightChunkIndices := insert index b.inFlightChunkIndices })
  | _, _ => (none, b)

def recordChunkCompletion (b : OperationBatch ε) (index : Int) (data : List UInt8) : OperationBatch ε :=
  match b.state with
  | .active =>
    { b with
      inFlightChunkIndices := b.inFlightChunkIndices.erase index
      completedChunks := AssocList.insert index data b.completedChunks }
  | _ => b

def recordSliceCompletion (b : OperationBatch ε) (index bytesWritten : Int) : OperationBatch ε :=
  match b.state with
  | .active =>
    { b with
      inFlightChunkIndices := b.inFlightChunkIndices.erase index
      completedSliceByteCounts := AssocList.insert index bytesWritten b.completedSliceByteCounts }
  | _ => b

def isComplete (b : OperationBatch ε) : Bool :=
  match b.state with
  | .active =>
    if b.sliceBuffer.isSome then b.completedSliceByteCounts.length = b.totalChunks
    else b.completedChunks.length = b.totalChunks
  | _ => false

/-- The loop over the slices of `assembleData`; the sum may overflow. -/
def totalBytesWritten (b : OperationBatch ε) : Option Int :=
  (chunkIndices b.totalChunks).foldlM
    (fun total index => IntType.int64.add total ((b.completedSliceByteCounts.lookup index).getD 0)) 0

/-- The body of the loop over the chunks of `assembleData`. -/
def appendChunk (chunks : List (Int × List UInt8)) (result : List UInt8) (index : Int) : List UInt8 :=
  match chunks.lookup index with
  | some chunk => result ++ chunk
  | none => result

/-- The data, and the batch with its buffer disowned, where `memory` is what the memory of the buffer
holds. `Data` traps on a negative count. -/
def assembleData (b : OperationBatch ε) (memory : Buffer) : Option (Contents × OperationBatch ε) :=
  match b.sliceBuffer with
  | some buffer => do
    let total ← b.totalBytesWritten
    if total < 0 then none
    else some ((List.range total.toNat).map memory, { b with sliceBuffer := some buffer.disown })
  | none =>
    let result := (chunkIndices b.totalChunks).foldl (appendChunk b.completedChunks) []
    some (result.map some, b)

def cancel (b : OperationBatch ε) (reason : ε) : OperationBatch ε :=
  match b.state with
  | .active => { b with state := .cancelled reason, pendingChunkIndices := [] }
  | _ => b

def isCancelled (b : OperationBatch ε) : Bool :=
  match b.state with
  | .cancelled _ => true
  | _ => false

/-- The batch becomes completed from every state. -/
def markCompleted (b : OperationBatch ε) : OperationBatch ε := { b with state := .completed }

/-! ## Sequences of calls -/

/-- The calls that change a batch. -/
inductive Call (ε : Type) where
  | dequeueNextChunk
  | recordChunkCompletion (index : Int) (data : List UInt8)
  | recordSliceCompletion (index bytesWritten : Int)
  | cancel (reason : ε)
  | markCompleted

def apply (b : OperationBatch ε) : Call ε → OperationBatch ε
  | .dequeueNextChunk => b.dequeueNextChunk.2
  | .recordChunkCompletion index data => b.recordChunkCompletion index data
  | .recordSliceCompletion index bytesWritten => b.recordSliceCompletion index bytesWritten
  | .cancel reason => b.cancel reason
  | .markCompleted => b.markCompleted

/-- The batch after a sequence of calls. -/
def run (b : OperationBatch ε) (calls : List (Call ε)) : OperationBatch ε := calls.foldl apply b

/-- The chunk index a call returns. -/
def returned (b : OperationBatch ε) : Call ε → Option Int
  | .dequeueNextChunk => b.dequeueNextChunk.1
  | _ => none

/-- The chunk indices the dequeues of a sequence return, in order. -/
def dequeued (b : OperationBatch ε) : List (Call ε) → List Int
  | [] => []
  | call :: calls => (b.returned call).toList ++ (b.apply call).dequeued calls

/-- The chunk a call records as completed. -/
def Call.completes : Call ε → Option Int
  | .recordChunkCompletion index _ => some index
  | .recordSliceCompletion index _ => some index
  | _ => none

/-- Whether a call ends the active state. -/
def Call.ends : Call ε → Bool
  | .cancel _ | .markCompleted => true
  | _ => false

def Call.dequeues : Call ε → Bool
  | .dequeueNextChunk => true
  | _ => false

/-- How many dequeues there are before the first call that ends the active state. -/
def dequeues (calls : List (Call ε)) : Nat := (calls.takeWhile (!·.ends)).countP Call.dequeues

/-- The completions of the mode of the batch, dequeues and cancels. -/
def Call.suits (b : OperationBatch ε) : Call ε → Bool
  | .recordChunkCompletion _ _ => b.sliceBuffer.isNone
  | .recordSliceCompletion _ _ => b.sliceBuffer.isSome
  | .markCompleted => false
  | _ => true

/-- A completion is recorded once for a chunk, after its dequeue, by the call of the mode. -/
structure Uses (b : OperationBatch ε) (calls : List (Call ε)) : Prop where
  suits : ∀ call ∈ calls, call.suits b
  completes : ∀ pre call post index, calls = pre ++ call :: post → call.completes = some index →
    index ∈ b.dequeued pre ∧ ∀ earlier ∈ pre, earlier.completes ≠ some index

/-- Every chunk index is in exactly one of the three, once. -/
structure Partition (n : Nat) (pending : List Int) (inFlight : Finset Int) (completed : List Int) :
    Prop where
  pending_nodup : pending.Nodup
  completed_nodup : completed.Nodup
  pending_inFlight : ∀ i ∈ pending, i ∉ inFlight
  pending_completed : ∀ i ∈ pending, i ∉ completed
  inFlight_completed : ∀ i ∈ inFlight, i ∉ completed
  mem_iff : ∀ i, i ∈ chunkIndices n ↔ i ∈ pending ∨ i ∈ inFlight ∨ i ∈ completed

/-- The sequence of calls leaves the batch in its state, dequeues and records nothing, and the batch is
not complete afterwards. -/
structure Absorbed (b : OperationBatch ε) (calls : List (Call ε)) : Prop where
  state : (b.run calls).state = b.state
  dequeued : b.dequeued calls = []
  completedChunks : (b.run calls).completedChunks = b.completedChunks
  completedSliceByteCounts :
    (b.run calls).completedSliceByteCounts = b.completedSliceByteCounts
  isComplete : (b.run calls).isComplete = false

/-! ## Buffer-slice mode -/

/-- The bytes are copied to the memory of a buffer. -/
def store (memory : Buffer) (offset : Nat) (data : List UInt8) : Buffer := fun k =>
  if offset ≤ k ∧ k < offset + data.length then data[k - offset]? else memory k

/-- What happens to a batch in buffer-slice mode: a call, or libnfs writes what it has read to a slice. -/
inductive Event (ε : Type) where
  | call (call : Call ε)
  | write (index : Nat) (data : List UInt8)

def Event.call? : Event ε → Option (Call ε)
  | .call c => some c
  | .write _ _ => none

/-- The calls among the events. -/
def calls (events : List (Event ε)) : List (Call ε) := events.filterMap Event.call?

/-- What one event does to the memory of the buffer, with slices of `chunkSize` bytes. -/
def Event.writeTo (chunkSize : Nat) (memory : Buffer) : Event ε → Buffer
  | .call _ => memory
  | .write index data => store memory (index * chunkSize) data

/-- The memory of the buffer after the events; nothing has been written before. -/
def memory (chunkSize : Nat) (events : List (Event ε)) : Buffer :=
  events.foldl (Event.writeTo chunkSize) fun _ => none

/-- The bytes written to a slice are those of its chunk, and its completion is recorded after them, with
their count. -/
structure Delivers (b : OperationBatch ε) (chunk : Int → List UInt8) (events : List (Event ε)) :
    Prop where
  uses : b.Uses (calls events)
  writes : ∀ (index : Nat) data, .write index data ∈ events → data = chunk index
  counts : ∀ pre (index bytesWritten : Int) post,
    events = pre ++ .call (.recordSliceCompletion index bytesWritten) :: post →
      bytesWritten = (chunk index).length ∧ ∃ i : Nat, index = i ∧ .write i (chunk index) ∈ pre

end OperationBatch

end NFSKit
