import NFSKit.OperationBatch
import NFSKit.Foundations.Slices
import Mathlib.Data.Finset.Card
import Mathlib.Data.List.TakeWhile

/-!
# Proofs: batches of operations

What the calls do to a batch whose state has left `.active`, how the chunks move from the pending array
through the in-flight set to the completed ones, and what `assembleData` returns in the two modes.
-/

namespace NFSKit

open Checked NFSClient

/-! ## The chunk indices -/

section ChunkIndices

variable {n k : Nat} {i : Int}

theorem mem_chunkIndices : i ∈ chunkIndices n ↔ 0 ≤ i ∧ i < n := by
  unfold chunkIndices
  rw [List.mem_map]
  constructor
  · rintro ⟨k, hk, rfl⟩
    have hlt := List.mem_range.mp hk
    simp only [Int.ofNat_eq_natCast]
    omega
  · rintro ⟨hnonneg, hlt⟩
    exact ⟨i.toNat, List.mem_range.mpr (by omega), Int.toNat_of_nonneg hnonneg⟩

theorem chunkIndices_succ (n : Nat) : chunkIndices (n + 1) = chunkIndices n ++ [(n : Int)] := by
  simp [chunkIndices, List.range_succ]

theorem length_chunkIndices (n : Nat) : (chunkIndices n).length = n := by
  simp [chunkIndices]

theorem nodup_chunkIndices (n : Nat) : (chunkIndices n).Nodup :=
  List.nodup_range.map fun _ _ h => Int.ofNat.inj h

theorem drop_chunkIndices (h : k < n) :
    (chunkIndices n).drop k = (k : Int) :: (chunkIndices n).drop (k + 1) := by
  rw [List.drop_eq_getElem_cons (by rwa [length_chunkIndices])]
  simp [chunkIndices]

theorem drop_chunkIndices_length (n : Nat) : (chunkIndices n).drop n = [] :=
  List.drop_eq_nil_of_le (length_chunkIndices n).le

theorem mem_drop_chunkIndices (h : k ≤ n) :
    i ∈ (chunkIndices n).drop k ↔ i ∈ chunkIndices n ∧ i ∉ chunkIndices k := by
  induction h with
  | refl => simp [drop_chunkIndices_length]
  | @step n hle ih =>
    have hle : k ≤ n := hle
    have hk : k ≤ (chunkIndices n).length := by rwa [length_chunkIndices]
    rw [chunkIndices_succ, List.drop_append_of_le_length hk, List.mem_append, ih]
    simp only [mem_chunkIndices, List.mem_append, List.mem_singleton]
    omega

end ChunkIndices

namespace OperationBatch

variable {ε : Type} {b : OperationBatch ε} {call : Call ε} {calls pre post : List (Call ε)}

/-! ## Runs -/

/-- An element of a list with one more at the end is that one, or lies before it. -/
theorem cons_append_of_concat {α : Type} {l pre post : List α} {x y : α}
    (h : l ++ [x] = pre ++ y :: post) : pre = l ∧ y = x ∨ ∃ post', l = pre ++ y :: post' := by
  rcases List.eq_nil_or_concat post with rfl | ⟨post, last, rfl⟩
  · obtain ⟨rfl, hlast⟩ := List.append_inj' h rfl
    exact .inl ⟨rfl, by simpa using hlast.symm⟩
  · have hsplit : l ++ [x] = (pre ++ y :: post) ++ [last] := by simpa using h
    obtain ⟨rfl, -⟩ := List.append_inj' hsplit rfl
    exact .inr ⟨post, rfl⟩

theorem run_append (b : OperationBatch ε) (pre post : List (Call ε)) :
    b.run (pre ++ post) = (b.run pre).run post := List.foldl_append

theorem run_concat (b : OperationBatch ε) (calls : List (Call ε)) (call : Call ε) :
    b.run (calls ++ [call]) = (b.run calls).apply call := run_append b calls [call]

theorem dequeued_append (b : OperationBatch ε) (pre post : List (Call ε)) :
    b.dequeued (pre ++ post) = b.dequeued pre ++ (b.run pre).dequeued post := by
  induction pre generalizing b with
  | nil => rfl
  | cons call pre ih =>
    have hrun : b.run (call :: pre) = (b.apply call).run pre := rfl
    simp only [List.cons_append, dequeued, ih, List.append_assoc, hrun]

theorem dequeued_concat (b : OperationBatch ε) (calls : List (Call ε)) (call : Call ε) :
    b.dequeued (calls ++ [call]) = b.dequeued calls ++ ((b.run calls).returned call).toList := by
  rw [dequeued_append]
  simp [dequeued]

/-! ## What one call does -/

/-- An active batch with the next pending chunk in flight. -/
theorem apply_dequeue {index : Int} {rest : List Int} (h : b.state = .active)
    (hp : b.pendingChunkIndices = index :: rest) :
    b.returned .dequeueNextChunk = some index ∧
      b.apply .dequeueNextChunk = { b with
        pendingChunkIndices := rest
        inFlightChunkIndices := insert index b.inFlightChunkIndices } := by
  simp [returned, apply, dequeueNextChunk, h, hp]

theorem apply_dequeue_nil (hp : b.pendingChunkIndices = []) :
    b.returned .dequeueNextChunk = none ∧ b.apply .dequeueNextChunk = b := by
  simp [returned, apply, dequeueNextChunk, hp]

/-- Outside the active state only `markCompleted` does anything, and it does so in a cancelled batch
only. -/
theorem apply_of_left (h : b.state ≠ .active) (call : Call ε) :
    b.returned call = none ∧
      (b.apply call = b ∨ call = .markCompleted ∧ b.isCancelled = true) := by
  cases hs : b.state with
  | active => exact absurd hs h
  | cancelled reason =>
    cases call with
    | markCompleted => exact ⟨rfl, .inr ⟨rfl, by simp [isCancelled, hs]⟩⟩
    | _ =>
      simp [returned, apply, dequeueNextChunk, recordChunkCompletion, recordSliceCompletion,
        OperationBatch.cancel, hs]
  | completed =>
    refine ⟨?_, .inl ?_⟩
    · cases call <;> simp [returned, dequeueNextChunk, hs]
    · cases call with
      | markCompleted =>
        show { b with state := .completed } = b
        rw [← hs]
      | _ =>
        simp [apply, dequeueNextChunk, recordChunkCompletion, recordSliceCompletion,
          OperationBatch.cancel, hs]

theorem isComplete_of_left (h : b.state ≠ .active) : b.isComplete = false := by
  cases hs : b.state with
  | active => exact absurd hs h
  | _ => simp [isComplete, hs]

theorem not_active_of_isCancelled (h : b.isCancelled = true) : b.state ≠ .active := by
  intro hs
  simp [isCancelled, hs] at h

/-! ## The terminal states -/

/-- A batch that is not marked as completed while it is cancelled stays as it is. -/
theorem run_of_left (h : b.state ≠ .active)
    (hmark : ∀ pre post, calls = pre ++ .markCompleted :: post → (b.run pre).isCancelled = false) :
    b.run calls = b ∧ b.dequeued calls = [] := by
  induction calls with
  | nil => exact ⟨rfl, rfl⟩
  | cons call calls ih =>
    obtain ⟨hreturned, happly⟩ := apply_of_left h call
    have hsame : b.apply call = b := by
      rcases happly with hsame | ⟨rfl, hcancelled⟩
      · exact hsame
      · have hnot : b.isCancelled = false := hmark [] calls rfl
        rw [hcancelled] at hnot
        cases hnot
    have hrest : ∀ pre post, calls = pre ++ .markCompleted :: post →
        (b.run pre).isCancelled = false := by
      intro pre post hcalls
      have hnext := hmark (call :: pre) post (by rw [hcalls]; rfl)
      rwa [show b.run (call :: pre) = (b.apply call).run pre from rfl, hsame] at hnext
    obtain ⟨hrun, hdequeued⟩ := ih hrest
    constructor
    · rw [show b.run (call :: calls) = (b.apply call).run calls from rfl, hsame, hrun]
    · rw [dequeued, hreturned, hsame, hdequeued]
      rfl

/-- The terminal states of a batch are absorbing in a sequence of calls if and only if it never marks a
cancelled batch as completed: `markCompleted` has no guard. -/
theorem terminal_states_absorb (b : OperationBatch ε) (calls : List (Call ε)) :
    (∀ pre post, calls = pre ++ post → (b.run pre).state ≠ .active → (b.run pre).Absorbed post) ↔
      ∀ pre post, calls = pre ++ .markCompleted :: post → (b.run pre).isCancelled = false := by
  constructor
  · rintro habsorbs pre post rfl
    by_contra hcancelled
    have hcancelled : (b.run pre).isCancelled = true := by simpa using hcancelled
    have hmarked : b.run (pre ++ [.markCompleted]) = (b.run pre).markCompleted := run_concat ..
    have hfirst := (habsorbs pre _ rfl (not_active_of_isCancelled hcancelled)).state
    have hsecond := (habsorbs (pre ++ [.markCompleted]) post (by simp) (by simp [hmarked, markCompleted])).state
    rw [← run_append, List.append_assoc, List.singleton_append, hmarked] at hsecond
    rw [← run_append, hsecond] at hfirst
    simp [isCancelled, ← hfirst, markCompleted] at hcancelled
  · rintro hmark pre post rfl hleft
    have hpost : ∀ pre' post', post = pre' ++ .markCompleted :: post' →
        ((b.run pre).run pre').isCancelled = false := by
      rintro pre' post' rfl
      rw [← run_append]
      exact hmark (pre ++ pre') post' (by simp)
    obtain ⟨hrun, hdequeued⟩ := run_of_left hleft hpost
    constructor
    · rw [hrun]
    · exact hdequeued
    · rw [hrun]
    · rw [hrun]
    · rw [hrun]
      exact isComplete_of_left hleft

/-- A cancelled batch becomes completed, and its error is lost. -/
theorem cancelled_batch_completes :
    let b : OperationBatch POSIXErrorCode := legacy 1
    let calls : List (Call POSIXErrorCode) := [.cancel .ECANCELED, .markCompleted]
    ¬∀ pre post, calls = pre ++ post → (b.run pre).state ≠ .active → (b.run pre).Absorbed post := by
  intro b calls habsorbs
  have hstate := (habsorbs [.cancel .ECANCELED] [.markCompleted] rfl (by decide)).state
  revert hstate
  decide

/-! ## Where the chunks are -/

/-- A batch as the initialisers create it. -/
structure Fresh (n : Nat) (b : OperationBatch ε) : Prop where
  state : b.state = .active
  pending : b.pendingChunkIndices = chunkIndices n
  inFlight : b.inFlightChunkIndices = ∅
  completedChunks : b.completedChunks = []
  completedSliceByteCounts : b.completedSliceByteCounts = []
  totalChunks : b.totalChunks = n

theorem fresh_legacy (n : Nat) : (legacy n : OperationBatch ε).Fresh n := ⟨rfl, rfl, rfl, rfl, rfl, rfl⟩

theorem fresh_sliced (n : Nat) (buffer : ReadBuffer) (chunkSize : Int) :
    (sliced n buffer chunkSize : OperationBatch ε).Fresh n := ⟨rfl, rfl, rfl, rfl, rfl, rfl⟩

/-- The keys of the dictionary of the mode. -/
def recordedIndices (b : OperationBatch ε) : List Int :=
  if b.sliceBuffer.isSome then b.completedSliceByteCounts.map Prod.fst else b.completedChunks.map Prod.fst

theorem apply_mode (b : OperationBatch ε) (call : Call ε) :
    (b.apply call).sliceBuffer = b.sliceBuffer ∧ (b.apply call).totalChunks = b.totalChunks := by
  cases call with
  | dequeueNextChunk =>
    simp only [apply, dequeueNextChunk]
    split <;> exact ⟨rfl, rfl⟩
  | recordChunkCompletion index data =>
    simp only [apply, recordChunkCompletion]
    split <;> exact ⟨rfl, rfl⟩
  | recordSliceCompletion index bytesWritten =>
    simp only [apply, recordSliceCompletion]
    split <;> exact ⟨rfl, rfl⟩
  | cancel reason =>
    simp only [apply, OperationBatch.cancel]
    split <;> exact ⟨rfl, rfl⟩
  | markCompleted => exact ⟨rfl, rfl⟩

theorem run_mode (b : OperationBatch ε) (calls : List (Call ε)) :
    (b.run calls).sliceBuffer = b.sliceBuffer ∧ (b.run calls).totalChunks = b.totalChunks := by
  induction calls generalizing b with
  | nil => exact ⟨rfl, rfl⟩
  | cons call calls ih =>
    obtain ⟨hbuffer, htotal⟩ := ih (b.apply call)
    obtain ⟨hbuffer', htotal'⟩ := apply_mode b call
    exact ⟨hbuffer.trans hbuffer', htotal.trans htotal'⟩

/-- A completion in an active batch, by the call of its mode. -/
theorem apply_completes {index : Int} (h : b.state = .active) (hsuits : call.suits b = true)
    (hc : call.completes = some index) :
    (b.apply call).state = .active ∧ (b.apply call).pendingChunkIndices = b.pendingChunkIndices ∧
      (b.apply call).inFlightChunkIndices = b.inFlightChunkIndices.erase index ∧
      (b.apply call).recordedIndices = index :: b.recordedIndices.filter (· ≠ index) ∧
      b.returned call = none ∧ call.ends = false ∧ call.dequeues = false := by
  cases call with
  | recordChunkCompletion i data =>
    obtain rfl : i = index := Option.some.inj hc
    have hmode : b.sliceBuffer.isSome = false := by simpa [Call.suits] using hsuits
    have happly : b.apply (.recordChunkCompletion i data) = { b with
        inFlightChunkIndices := b.inFlightChunkIndices.erase i
        completedChunks := AssocList.insert i data b.completedChunks } := by
      simp [apply, recordChunkCompletion, h]
    rw [happly]
    refine ⟨h, rfl, rfl, ?_, rfl, rfl, rfl⟩
    simp only [recordedIndices, hmode, Bool.false_eq_true, if_false, AssocList.keys_insert]
  | recordSliceCompletion i bytesWritten =>
    obtain rfl : i = index := Option.some.inj hc
    have hmode : b.sliceBuffer.isSome = true := hsuits
    have happly : b.apply (.recordSliceCompletion i bytesWritten) = { b with
        inFlightChunkIndices := b.inFlightChunkIndices.erase i
        completedSliceByteCounts := AssocList.insert i bytesWritten b.completedSliceByteCounts } := by
      simp [apply, recordSliceCompletion, h]
    rw [happly]
    refine ⟨h, rfl, rfl, ?_, rfl, rfl, rfl⟩
    simp only [recordedIndices, hmode, if_true, AssocList.keys_insert]
  | _ => cases hc

/-- The dequeues before the end go on as long as nothing has ended the active state. -/
theorem dequeues_concat_of_active (h : ∀ call ∈ calls, call.ends = false) (call : Call ε) :
    dequeues (calls ++ [call]) =
      dequeues calls + if call.ends = false ∧ call.dequeues = true then 1 else 0 := by
  have hall : ∀ c ∈ calls, (!c.ends) = true := by
    intro c hc
    simp [h c hc]
  have htake : calls.takeWhile (!·.ends) = calls := List.takeWhile_eq_self_iff.mpr hall
  rw [dequeues, dequeues, List.takeWhile_append_of_pos hall, List.countP_append, htake]
  by_cases hends : call.ends = false <;> by_cases hdequeues : call.dequeues = true <;>
    simp [hends, hdequeues]

theorem dequeues_concat_of_left (h : ¬∀ call ∈ calls, call.ends = false) (call : Call ε) :
    dequeues (calls ++ [call]) = dequeues calls := by
  have hshort : (calls.takeWhile (!·.ends)).length ≠ calls.length := by
    intro hlen
    have hself := (List.takeWhile_prefix (l := calls) (p := (!·.ends))).eq_of_length hlen
    rw [List.takeWhile_eq_self_iff] at hself
    exact h fun c hc => by simpa using hself c hc
  rw [dequeues, dequeues, List.takeWhile_append, if_neg hshort]

theorem Uses.init {b : OperationBatch ε} (h : b.Uses (calls ++ [call])) : b.Uses calls := by
  constructor
  · intro c hc
    exact h.suits c (List.mem_append_left _ hc)
  · rintro pre c post index rfl hindex
    exact h.completes pre c (post ++ [call]) index (by simp) hindex

theorem uses_nil (b : OperationBatch ε) : b.Uses [] := by
  constructor
  · intro call hcall
    cases hcall
  · intro pre call post index hcalls
    simp at hcalls

theorem Uses.concat (h : b.Uses calls) (call : Call ε) (hsuits : call.suits b = true)
    (hcompletes : ∀ index, call.completes = some index →
      index ∈ b.dequeued calls ∧ ∀ earlier ∈ calls, earlier.completes ≠ some index) :
    b.Uses (calls ++ [call]) := by
  constructor
  · intro c hc
    rcases List.mem_append.mp hc with hold | hnew
    · exact h.suits c hold
    · rw [List.mem_singleton.mp hnew]
      exact hsuits
  · intro pre c post index hcalls hindex
    rcases cons_append_of_concat hcalls with ⟨rfl, rfl⟩ | ⟨post', rfl⟩
    · exact hcompletes index hindex
    · exact h.completes pre c post' index rfl hindex

/-- Where the chunks of a batch are after a sequence of calls. -/
structure Tracks (n : Nat) (b : OperationBatch ε) (calls : List (Call ε)) : Prop where
  active : (b.run calls).state = .active ↔ ∀ call ∈ calls, call.ends = false
  dequeued : b.dequeued calls = chunkIndices (min n (dequeues calls))
  pending : (b.run calls).state = .active →
    (b.run calls).pendingChunkIndices = (chunkIndices n).drop (min n (dequeues calls))
  recorded : (b.run calls).state = .active →
    ∀ i, i ∈ (b.run calls).recordedIndices ↔ ∃ call ∈ calls, call.completes = some i
  recorded_nodup : (b.run calls).state = .active → (b.run calls).recordedIndices.Nodup
  inFlight : (b.run calls).state = .active →
    ∀ i, i ∈ (b.run calls).inFlightChunkIndices ↔
      i ∈ b.dequeued calls ∧ i ∉ (b.run calls).recordedIndices

theorem tracks_nil {n : Nat} (h : b.Fresh n) : b.Tracks n [] := by
  have hrecorded : b.recordedIndices = [] := by
    simp [recordedIndices, h.completedChunks, h.completedSliceByteCounts]
  constructor
  · simp [run, h.state]
  · simp [OperationBatch.dequeued, dequeues, chunkIndices]
  · simp [run, dequeues, h.pending]
  · simp [run, hrecorded]
  · simp [run, hrecorded]
  · simp [run, h.inFlight, OperationBatch.dequeued]

/-- A recorded chunk has been dequeued. -/
theorem Uses.mem_dequeued {index : Int} (h : b.Uses calls) (hmem : call ∈ calls)
    (hc : call.completes = some index) : index ∈ b.dequeued calls := by
  obtain ⟨before, after, rfl⟩ := List.append_of_mem hmem
  rw [dequeued_append]
  exact List.mem_append_left _ (h.completes before call after index rfl hc).1

theorem ends_concat_iff (h : ∀ c ∈ calls, c.ends = false) :
    (∀ c ∈ calls ++ [call], c.ends = false) ↔ call.ends = false := by
  simp only [List.mem_append, List.mem_singleton, or_imp, forall_and, forall_eq]
  exact ⟨fun hboth => hboth.2, fun hcall => ⟨h, hcall⟩⟩

namespace Tracks

variable {n : Nat}

/-- A completion moves its chunk from the in-flight set to the dictionary. -/
theorem completes {index : Int} (h : b.Tracks n calls) (hactive : (b.run calls).state = .active)
    (hsuits : call.suits (b.run calls) = true) (hcompletes : call.completes = some index) :
    b.Tracks n (calls ++ [call]) := by
  have hall := h.active.mp hactive
  obtain ⟨hstate, hpend, hfly, hkeys, hreturned, hnoend, hnodeq⟩ :=
    apply_completes hactive hsuits hcompletes
  have hdequeued : b.dequeued (calls ++ [call]) = b.dequeued calls := by
    rw [dequeued_concat, hreturned]
    simp
  have hsame : dequeues (calls ++ [call]) = dequeues calls := by
    rw [dequeues_concat_of_active hall, hnodeq]
    simp
  have hkeys' : ∀ i, i ∈ ((b.run calls).apply call).recordedIndices ↔
      i = index ∨ i ∈ (b.run calls).recordedIndices := by
    intro i
    rw [hkeys, List.mem_cons, List.mem_filter]
    by_cases hi : i = index <;> simp [hi]
  constructor
  · rw [run_concat, ends_concat_iff hall]
    exact ⟨fun _ => hnoend, fun _ => hstate⟩
  · rw [hdequeued, hsame]
    exact h.dequeued
  · intro _
    rw [run_concat, hpend, hsame]
    exact h.pending hactive
  · intro _ i
    rw [run_concat, hkeys', h.recorded hactive i]
    simp only [List.mem_append, List.mem_singleton, or_and_right, exists_or, exists_eq_left, hcompletes,
      Option.some.injEq]
    constructor
    · rintro (rfl | hold)
      · exact .inr rfl
      · exact .inl hold
    · rintro (hold | rfl)
      · exact .inr hold
      · exact .inl rfl
  · intro _
    rw [run_concat, hkeys, List.nodup_cons]
    exact ⟨by simp, (h.recorded_nodup hactive).filter _⟩
  · intro _ i
    rw [run_concat, hfly, Finset.mem_erase, h.inFlight hactive i, hdequeued, hkeys']
    tauto

/-- A dequeue moves the least pending chunk in flight. -/
theorem dequeue (h : b.Tracks n calls) (hactive : (b.run calls).state = .active)
    (huses : b.Uses calls) (hlt : dequeues calls < n) :
    b.Tracks n (calls ++ [.dequeueNextChunk]) := by
  have hall := h.active.mp hactive
  have hadd : dequeues (calls ++ [.dequeueNextChunk]) = dequeues calls + 1 :=
    dequeues_concat_of_active hall _
  have hmin : min n (dequeues calls) = dequeues calls := by omega
  have hmin' : min n (dequeues calls + 1) = dequeues calls + 1 := by omega
  have hpending := h.pending hactive
  rw [hmin, drop_chunkIndices hlt] at hpending
  obtain ⟨hreturned, happly⟩ := apply_dequeue hactive hpending
  have hdequeued : b.dequeued (calls ++ [.dequeueNextChunk]) =
      b.dequeued calls ++ [(dequeues calls : Int)] := by
    rw [dequeued_concat, hreturned]
    rfl
  have hkeys : ((b.run calls).apply .dequeueNextChunk).recordedIndices =
      (b.run calls).recordedIndices := by
    rw [happly]
    rfl
  have hnew : (dequeues calls : Int) ∉ (b.run calls).recordedIndices := by
    intro hmem
    obtain ⟨c, hc, hsome⟩ := (h.recorded hactive _).mp hmem
    have hissued := huses.mem_dequeued hc hsome
    rw [h.dequeued, hmin, mem_chunkIndices] at hissued
    omega
  constructor
  · rw [run_concat, ends_concat_iff hall, happly]
    exact ⟨fun _ => rfl, fun _ => hactive⟩
  · rw [hdequeued, h.dequeued, hadd, hmin, hmin', chunkIndices_succ]
  · intro _
    rw [run_concat, happly, hadd, hmin']
  · intro _ i
    rw [run_concat, hkeys, h.recorded hactive i]
    simp [or_and_right, exists_or, Call.completes]
  · intro _
    rw [run_concat, hkeys]
    exact h.recorded_nodup hactive
  · intro _ i
    rw [run_concat, hkeys, happly, hdequeued, Finset.mem_insert, h.inFlight hactive i,
      List.mem_append, List.mem_singleton]
    constructor
    · rintro (rfl | ⟨hissued, hnot⟩)
      · exact ⟨.inr rfl, hnew⟩
      · exact ⟨.inl hissued, hnot⟩
    · rintro ⟨hissued | rfl, hnot⟩
      · exact .inr ⟨hissued, hnot⟩
      · exact .inl rfl

/-- When all chunks have been issued, a dequeue does nothing. -/
theorem dequeue_nil (h : b.Tracks n calls) (hactive : (b.run calls).state = .active)
    (hge : n ≤ dequeues calls) : b.Tracks n (calls ++ [.dequeueNextChunk]) := by
  have hall := h.active.mp hactive
  have hadd : dequeues (calls ++ [.dequeueNextChunk]) = dequeues calls + 1 :=
    dequeues_concat_of_active hall _
  have hmin : min n (dequeues calls) = n := by omega
  have hmin' : min n (dequeues calls + 1) = n := by omega
  have hnil : (b.run calls).pendingChunkIndices = [] := by
    rw [h.pending hactive, hmin, drop_chunkIndices_length]
  obtain ⟨hreturned, happly⟩ := apply_dequeue_nil hnil
  have hrun : b.run (calls ++ [.dequeueNextChunk]) = b.run calls := by rw [run_concat, happly]
  have hdequeued : b.dequeued (calls ++ [.dequeueNextChunk]) = b.dequeued calls := by
    rw [dequeued_concat, hreturned]
    simp
  constructor
  · rw [hrun, ends_concat_iff hall]
    exact ⟨fun _ => rfl, fun _ => hactive⟩
  · rw [hdequeued, h.dequeued, hadd, hmin, hmin']
  · intro _
    rw [hrun, hnil, hadd, hmin', drop_chunkIndices_length]
  · intro _ i
    rw [hrun, h.recorded hactive i]
    simp [or_and_right, exists_or, Call.completes]
  · rw [hrun]
    exact h.recorded_nodup
  · rw [hrun, hdequeued]
    exact h.inFlight

theorem cancel (h : b.Tracks n calls) (hactive : (b.run calls).state = .active) (reason : ε) :
    b.Tracks n (calls ++ [.cancel reason]) := by
  have hall := h.active.mp hactive
  have hleft : (b.run (calls ++ [.cancel reason])).state ≠ .active := by
    rw [run_concat]
    simp [apply, OperationBatch.cancel, hactive]
  have hsame : dequeues (calls ++ [.cancel reason]) = dequeues calls :=
    dequeues_concat_of_active hall _
  constructor
  · rw [ends_concat_iff hall]
    exact ⟨fun hstill => absurd hstill hleft, fun hnot => by cases hnot⟩
  · rw [dequeued_concat, hsame]
    simpa [returned] using h.dequeued
  all_goals
    intro hstill
    exact absurd hstill hleft

/-- Nothing moves once the batch has been cancelled. -/
theorem of_left (h : b.Tracks n calls) (hleft : (b.run calls).state ≠ .active)
    (hsuits : call.suits b = true) : b.Tracks n (calls ++ [call]) := by
  have hnot : ¬∀ c ∈ calls, c.ends = false := fun hall => hleft (h.active.mpr hall)
  obtain ⟨hreturned, hsame⟩ := apply_of_left hleft call
  have hsame : b.run (calls ++ [call]) = b.run calls := by
    rw [run_concat]
    rcases hsame with hsame | ⟨rfl, -⟩
    · exact hsame
    · cases hsuits
  constructor
  · rw [hsame]
    constructor
    · intro hactive
      exact absurd hactive hleft
    · intro hall
      exact absurd (fun c hc => hall c (List.mem_append_left _ hc)) hnot
  · rw [dequeued_concat, hreturned, dequeues_concat_of_left hnot]
    simpa using h.dequeued
  all_goals
    rw [hsame]
    intro hactive
    exact absurd hactive hleft

end Tracks

theorem tracks_run {n : Nat} (hfresh : b.Fresh n) (h : b.Uses calls) : b.Tracks n calls := by
  induction calls using List.reverseRecOn with
  | nil => exact tracks_nil hfresh
  | append_singleton calls call ih =>
    have htracks := ih h.init
    have hsuits := h.suits call (by simp)
    have hmode := (run_mode b calls).1
    by_cases hactive : (b.run calls).state = .active
    · cases call with
      | dequeueNextChunk =>
        by_cases hlt : dequeues calls < n
        · exact htracks.dequeue hactive h.init hlt
        · exact htracks.dequeue_nil hactive (not_lt.mp hlt)
      | recordChunkCompletion index data =>
        exact htracks.completes hactive (by simpa [Call.suits, hmode] using hsuits) rfl
      | recordSliceCompletion index bytesWritten =>
        exact htracks.completes hactive (by simpa [Call.suits, hmode] using hsuits) rfl
      | cancel reason => exact htracks.cancel hactive reason
      | markCompleted => cases hsuits
    · exact htracks.of_left hactive hsuits

/-- While the batch is active, each chunk is in one of the three places. -/
theorem Tracks.partition {n : Nat} (h : b.Tracks n calls) (huses : b.Uses calls)
    (hactive : (b.run calls).state = .active) :
    Partition n (b.run calls).pendingChunkIndices (b.run calls).inFlightChunkIndices
      (b.run calls).recordedIndices := by
  have hpending : ∀ i, i ∈ (b.run calls).pendingChunkIndices ↔
      i ∈ chunkIndices n ∧ i ∉ b.dequeued calls := by
    intro i
    rw [h.pending hactive, h.dequeued, mem_drop_chunkIndices (Nat.min_le_left ..)]
  have hrecorded : ∀ i ∈ (b.run calls).recordedIndices, i ∈ b.dequeued calls := by
    intro i hi
    obtain ⟨call, hcall, hsome⟩ := (h.recorded hactive i).mp hi
    exact huses.mem_dequeued hcall hsome
  have hissued : ∀ i ∈ b.dequeued calls, i ∈ chunkIndices n := by
    intro i hi
    rw [h.dequeued] at hi
    rw [mem_chunkIndices] at hi ⊢
    omega
  have hinFlight := h.inFlight hactive
  constructor
  · rw [h.pending hactive]
    exact (nodup_chunkIndices n).sublist (List.drop_sublist ..)
  · exact h.recorded_nodup hactive
  · intro i hi hfly
    exact ((hpending i).mp hi).2 ((hinFlight i).mp hfly).1
  · intro i hi hdone
    exact ((hpending i).mp hi).2 (hrecorded i hdone)
  · intro i hfly
    exact ((hinFlight i).mp hfly).2
  · intro i
    constructor
    · intro hi
      by_cases hout : i ∈ b.dequeued calls
      · by_cases hdone : i ∈ (b.run calls).recordedIndices
        · exact .inr (.inr hdone)
        · exact .inr (.inl ((hinFlight i).mpr ⟨hout, hdone⟩))
      · exact .inl ((hpending i).mpr ⟨hi, hout⟩)
    · rintro (hi | hfly | hdone)
      · exact ((hpending i).mp hi).1
      · exact hissued i ((hinFlight i).mp hfly).1
      · exact hissued i (hrecorded i hdone)

theorem isComplete_iff (b : OperationBatch ε) :
    b.isComplete = true ↔ b.state = .active ∧ b.recordedIndices.length = b.totalChunks := by
  cases hs : b.state with
  | active =>
    unfold isComplete recordedIndices
    rw [hs]
    by_cases hmode : b.sliceBuffer.isSome = true <;> simp [hmode]
  | _ => simp [isComplete, hs]

/-- The dictionary has one entry for each chunk if and only if it has as many entries as there are
chunks. -/
theorem Tracks.isComplete_iff {n : Nat} (h : b.Tracks n calls) (hfresh : b.Fresh n)
    (huses : b.Uses calls) :
    (b.run calls).isComplete = true ↔ (b.run calls).state = .active ∧
      ∀ i ∈ chunkIndices n, ∃ call ∈ calls, call.completes = some i := by
  rw [OperationBatch.isComplete_iff, (run_mode b calls).2, hfresh.totalChunks]
  refine and_congr_right fun hactive => ?_
  have hpartition := h.partition huses hactive
  have hsub : (b.run calls).recordedIndices ⊆ chunkIndices n :=
    fun i hi => (hpartition.mem_iff i).mpr (.inr (.inr hi))
  simp only [← h.recorded hactive]
  constructor
  · intro hlen i hi
    have hperm := (hpartition.completed_nodup.subperm hsub).perm_of_length_le
      (by rw [length_chunkIndices, hlen])
    exact hperm.mem_iff.mpr hi
  · intro hall
    have hle := (hpartition.completed_nodup.subperm hsub).length_le
    have hge := ((nodup_chunkIndices n).subperm hall).length_le
    rw [length_chunkIndices] at hle hge
    omega

/-! ## What a complete batch holds -/

theorem completedChunks_apply {p : Int × List UInt8} (h : p ∈ (b.apply call).completedChunks) :
    p ∈ b.completedChunks ∨ call = .recordChunkCompletion p.1 p.2 := by
  cases call with
  | recordChunkCompletion index data =>
    simp only [apply, recordChunkCompletion] at h
    split at h
    · rcases List.mem_cons.mp h with rfl | hold
      · exact .inr rfl
      · exact .inl (List.mem_filter.mp hold).1
    · exact .inl h
  | markCompleted => exact .inl h
  | _ =>
    simp only [apply, dequeueNextChunk, recordSliceCompletion, OperationBatch.cancel] at h
    split at h <;> exact .inl h

theorem completedSliceByteCounts_apply {p : Int × Int}
    (h : p ∈ (b.apply call).completedSliceByteCounts) :
    p ∈ b.completedSliceByteCounts ∨ call = .recordSliceCompletion p.1 p.2 := by
  cases call with
  | recordSliceCompletion index bytesWritten =>
    simp only [apply, recordSliceCompletion] at h
    split at h
    · rcases List.mem_cons.mp h with rfl | hold
      · exact .inr rfl
      · exact .inl (List.mem_filter.mp hold).1
    · exact .inl h
  | markCompleted => exact .inl h
  | _ =>
    simp only [apply, dequeueNextChunk, recordChunkCompletion, OperationBatch.cancel] at h
    split at h <;> exact .inl h

/-- The entries of the dictionaries come from the calls. -/
theorem entries_run {n : Nat} (h : b.Fresh n) (calls : List (Call ε)) :
    (∀ p ∈ (b.run calls).completedChunks, .recordChunkCompletion p.1 p.2 ∈ calls) ∧
      ∀ p ∈ (b.run calls).completedSliceByteCounts, .recordSliceCompletion p.1 p.2 ∈ calls := by
  induction calls using List.reverseRecOn with
  | nil => simp [run, h.completedChunks, h.completedSliceByteCounts]
  | append_singleton calls call ih =>
    rw [run_concat]
    constructor
    · intro p hp
      rcases completedChunks_apply hp with hold | rfl
      · exact List.mem_append_left _ (ih.1 p hold)
      · simp
    · intro p hp
      rcases completedSliceByteCounts_apply hp with hold | rfl
      · exact List.mem_append_left _ (ih.2 p hold)
      · simp

/-- The loop of `assembleData` in legacy mode. -/
theorem foldl_chunks {chunks : List (Int × List UInt8)} {chunk : Int → List UInt8} {l : List Int}
    (h : ∀ i ∈ l, chunks.lookup i = some (chunk i)) (acc : List UInt8) :
    l.foldl (appendChunk chunks) acc = acc ++ l.flatMap chunk := by
  induction l generalizing acc with
  | nil => simp
  | cons i l ih =>
    have hi : appendChunk chunks acc i = acc ++ chunk i := by
      rw [appendChunk, h i List.mem_cons_self]
    have hrest : ∀ j ∈ l, chunks.lookup j = some (chunk j) :=
      fun j hj => h j (List.mem_cons_of_mem _ hj)
    rw [List.foldl_cons, hi, ih hrest, List.flatMap_cons, List.append_assoc]

theorem assembleData_legacy {chunk : Int → List UInt8} (hmode : b.sliceBuffer = none)
    (h : ∀ i ∈ chunkIndices b.totalChunks, b.completedChunks.lookup i = some (chunk i))
    (memory : Buffer) :
    b.assembleData memory = some (((chunkIndices b.totalChunks).flatMap chunk).map some, b) := by
  unfold assembleData
  rw [hmode]
  simp only
  rw [foldl_chunks h, List.nil_append]

theorem recordedIndices_legacy (n : Nat) (calls : List (Call ε)) :
    ((legacy n).run calls).recordedIndices = ((legacy n).run calls).completedChunks.map Prod.fst := by
  unfold recordedIndices
  rw [(run_mode (legacy n) calls).1]
  rfl

/-- The data of a complete legacy batch are its chunks in the order of their indices. -/
theorem assembleData_complete {n : Nat} {calls : List (Call ε)} (h : (legacy n).Uses calls)
    {chunk : Int → List UInt8} (hchunk : ∀ i data, .recordChunkCompletion i data ∈ calls → data = chunk i)
    (hcomplete : ((legacy n).run calls).isComplete = true) (memory : Buffer) :
    ((legacy n).run calls).assembleData memory =
      some (((chunkIndices n).flatMap chunk).map some, (legacy n).run calls) := by
  have hfresh : (legacy n : OperationBatch ε).Fresh n := fresh_legacy n
  have htracks := tracks_run hfresh h
  obtain ⟨hmode, htotal⟩ := run_mode (legacy n) calls
  have hkeys := recordedIndices_legacy n calls
  obtain ⟨hactive, hall⟩ := (htracks.isComplete_iff hfresh h).mp hcomplete
  have hrecorded := htracks.recorded hactive
  have hnodup := htracks.recorded_nodup hactive
  have hentries := (entries_run hfresh calls).1
  generalize (legacy n).run calls = b at hmode htotal hkeys hrecorded hnodup hentries ⊢
  rw [hkeys] at hnodup
  have hlookup : ∀ i ∈ chunkIndices b.totalChunks, b.completedChunks.lookup i = some (chunk i) := by
    intro i hi
    rw [htotal] at hi
    have hkey : i ∈ b.completedChunks.map Prod.fst := by
      rw [← hkeys]
      exact (hrecorded i).mpr (hall i hi)
    obtain ⟨⟨j, data⟩, hmem, rfl⟩ := List.mem_map.mp hkey
    have hdata : data = chunk j := hchunk j data (hentries _ hmem)
    rw [← hdata]
    exact AssocList.lookup_of_mem hnodup (fun _ hp => hp) hmem
  rw [assembleData_legacy hmode hlookup, htotal]
  rfl

/-- For every sequence of dequeues, completions and cancels on a legacy batch of `n` chunks: the
dequeues return 0, 1, 2, … until the chunks are used up; while the batch is active, its chunks are
partitioned into pending, in-flight and completed ones; it is complete when it is active and all chunks
are recorded; and then its data are the chunks in index order, whatever the order of the calls. -/
theorem legacy_batch (n : Nat) {calls : List (Call ε)} (h : (legacy n).Uses calls) :
    let b := (legacy n).run calls
    (legacy n).dequeued calls = chunkIndices (min n (dequeues calls)) ∧
      (b.state = .active → Partition n b.pendingChunkIndices b.inFlightChunkIndices
        (b.completedChunks.map Prod.fst)) ∧
      (b.isComplete = true ↔ b.state = .active ∧
        ∀ i ∈ chunkIndices n, ∃ call ∈ calls, call.completes = some i) ∧
      ∀ chunk, (∀ i data, .recordChunkCompletion i data ∈ calls → data = chunk i) →
        b.isComplete = true → ∀ memory,
          b.assembleData memory = some (((chunkIndices n).flatMap chunk).map some, b) := by
  intro b
  have hfresh : (legacy n : OperationBatch ε).Fresh n := fresh_legacy n
  have htracks := tracks_run hfresh h
  refine ⟨htracks.dequeued, ?_, htracks.isComplete_iff hfresh h, ?_⟩
  · intro hactive
    rw [← recordedIndices_legacy]
    exact htracks.partition h hactive
  · intro chunk hchunk hcomplete memory
    exact assembleData_complete h hchunk hcomplete memory

/-- Two chunks are dequeued, and the second one is completed first. -/
def twoChunks (chunk : Int → List UInt8) : List (Call ε) :=
  [.dequeueNextChunk, .dequeueNextChunk, .recordChunkCompletion 1 (chunk 1),
    .recordChunkCompletion 0 (chunk 0)]

theorem uses_twoChunks (chunk : Int → List UInt8) : (legacy 2 : OperationBatch ε).Uses (twoChunks chunk) := by
  have hissued : (legacy 2 : OperationBatch ε).Uses [.dequeueNextChunk, .dequeueNextChunk] := by
    refine ((uses_nil _).concat .dequeueNextChunk rfl ?_).concat .dequeueNextChunk rfl ?_ <;>
      simp [Call.completes]
  have hsecond : (legacy 2 : OperationBatch ε).Uses
      [.dequeueNextChunk, .dequeueNextChunk, .recordChunkCompletion 1 (chunk 1)] := by
    refine hissued.concat (.recordChunkCompletion 1 (chunk 1)) rfl ?_
    rintro _ ⟨⟩
    exact ⟨List.mem_cons_of_mem _ List.mem_cons_self, by simp [Call.completes]⟩
  refine hsecond.concat (.recordChunkCompletion 0 (chunk 0)) rfl ?_
  rintro _ ⟨⟩
  exact ⟨List.mem_cons_self, by simp [Call.completes]⟩

theorem mem_twoChunks {chunk : Int → List UInt8} {i : Int} {data : List UInt8}
    (h : .recordChunkCompletion i data ∈ (twoChunks chunk : List (Call ε))) : data = chunk i := by
  simp only [twoChunks, List.mem_cons, reduceCtorEq, Call.recordChunkCompletion.injEq, List.not_mem_nil,
    or_false, false_or] at h
  rcases h with ⟨rfl, rfl⟩ | ⟨rfl, rfl⟩ <;> rfl

theorem legacy_batch_two :
    let chunk : Int → List UInt8 := fun i => if i = 0 then [5] else [7, 8]
    let b := (legacy 2 : OperationBatch POSIXErrorCode).run (twoChunks chunk)
    b.isComplete = true ∧
      b.assembleData (fun _ => none) = some (((chunkIndices 2).flatMap chunk).map some, b) := by
  intro chunk b
  have hcomplete : b.isComplete = true := by decide
  exact ⟨hcomplete, (legacy_batch 2 (uses_twoChunks chunk)).2.2.2 chunk (fun _ _ => mem_twoChunks)
    hcomplete _⟩

/-! ## Buffer-slice mode -/

section Slices

variable {n chunkSize : Nat} {chunk : Int → List UInt8} {events : List (Event ε)}

theorem memory_concat (events : List (Event ε)) (e : Event ε) :
    memory chunkSize (events ++ [e]) = e.writeTo chunkSize (memory chunkSize events) := by
  simp [memory]

/-- A place in a slice holds the byte of its chunk, or has not been written. -/
theorem memory_slice {i j : Nat} (hlen : ∀ i, (chunk i).length ≤ chunkSize)
    (hwrites : ∀ (i : Nat) data, .write i data ∈ events → data = chunk i) (hj : j < chunkSize) :
    memory chunkSize events (i * chunkSize + j) = (chunk i)[j]? ∨
      memory chunkSize events (i * chunkSize + j) = none ∧ .write i (chunk i) ∉ events := by
  induction events using List.reverseRecOn with
  | nil => exact .inr ⟨rfl, List.not_mem_nil⟩
  | append_singleton events e ih =>
    have ih := ih fun i data hmem => hwrites i data (List.mem_append_left _ hmem)
    rw [memory_concat]
    cases e with
    | call c =>
      rcases ih with hbyte | ⟨hnone, hnot⟩
      · exact .inl hbyte
      · exact .inr ⟨hnone, by simpa using hnot⟩
    | write m data =>
      obtain rfl : data = chunk m := hwrites m data (by simp)
      have hm := hlen m
      simp only [Event.writeTo, store]
      by_cases hmi : m = i
      · subst hmi
        left
        by_cases hin : j < (chunk m).length
        · rw [if_pos ⟨by omega, by omega⟩, Nat.add_sub_cancel_left]
        · rw [if_neg (by omega)]
          have hout : (chunk m)[j]? = none := List.getElem?_eq_none (by omega)
          rcases ih with hbyte | ⟨hnone, -⟩
          · exact hbyte
          · rw [hnone, hout]
      · have hout : ¬(m * chunkSize ≤ i * chunkSize + j ∧
            i * chunkSize + j < m * chunkSize + (chunk m).length) := by
          rintro ⟨hlow, hhigh⟩
          have hplace : i * chunkSize + j = m * chunkSize + (i * chunkSize + j - m * chunkSize) := by omega
          exact hmi (Slices.slice_unique hj (by omega) hplace).symm
        rw [if_neg hout]
        rcases ih with hbyte | ⟨hnone, hnot⟩
        · exact .inl hbyte
        · refine .inr ⟨hnone, ?_⟩
          simp only [List.mem_append, List.mem_singleton, Event.write.injEq, not_or, not_and]
          exact ⟨hnot, fun him => absurd him.symm hmi⟩

/-- The sum of the recorded counts, if it does not overflow. -/
theorem totalBytesWritten_eq (chunk : Int → List UInt8) (hcounts : ∀ i < b.totalChunks,
      b.completedSliceByteCounts.lookup (i : Int) = some ((chunk i).length : Int))
    (hfits : Slices.total (fun i : Nat => chunk i) b.totalChunks < 2 ^ 63) :
    b.totalBytesWritten = some (Slices.total (fun i : Nat => chunk i) b.totalChunks : Int) := by
  have hprefix : ∀ m ≤ b.totalChunks, (chunkIndices m).foldlM
      (fun total index => IntType.int64.add total ((b.completedSliceByteCounts.lookup index).getD 0)) 0 =
        some (Slices.total (fun i : Nat => chunk i) m : Int) := by
    intro m hm
    induction m with
    | zero => rfl
    | succ m ih =>
      have hle : Slices.total (fun i : Nat => chunk i) (m + 1) ≤
        Slices.total (fun i : Nat => chunk i) b.totalChunks := Slices.total_mono hm
      have hsum := Slices.total_succ (fun i : Nat => chunk i) m
      have hadd : IntType.int64.add (Slices.total (fun i : Nat => chunk i) m : Int) ((chunk m).length : Int) =
          some (Slices.total (fun i : Nat => chunk i) (m + 1) : Int) := by
        rw [IntType.add_eq_some (IntType.fits_int64.mpr (by omega)), hsum]
        push_cast
        rfl
      rw [chunkIndices_succ, List.foldlM_append, ih (by omega)]
      simp only [Option.bind_eq_bind, Option.bind_some, List.foldlM_cons, List.foldlM_nil,
        hcounts m (by omega), Option.getD_some, hadd]
      rfl
  exact hprefix _ le_rfl

/-- What a complete batch in buffer-slice mode has recorded and written. -/
theorem Delivers.complete {buffer : ReadBuffer}
    (h : (sliced n buffer chunkSize : OperationBatch ε).Delivers chunk events)
    (hcomplete : ((sliced n buffer chunkSize).run (OperationBatch.calls events)).isComplete = true)
    {i : Nat} (hi : i < n) :
    ((sliced n buffer chunkSize).run (OperationBatch.calls events)).completedSliceByteCounts.lookup
        (i : Int) = some ((chunk i).length : Int) ∧ .write i (chunk i) ∈ events := by
  have hfresh : (sliced n buffer chunkSize : OperationBatch ε).Fresh n := fresh_sliced ..
  have htracks := tracks_run hfresh h.uses
  have hmode : ((sliced n buffer chunkSize).run (OperationBatch.calls events)).sliceBuffer =
    some buffer := (run_mode _ _).1
  obtain ⟨hactive, hall⟩ := (htracks.isComplete_iff hfresh h.uses).mp hcomplete
  have hnodup := htracks.recorded_nodup hactive
  have hkey := (htracks.recorded hactive i).mpr (hall i (mem_chunkIndices.mpr (by omega)))
  rw [recordedIndices, hmode, Option.isSome_some, if_pos rfl] at hnodup hkey
  obtain ⟨⟨j, bytesWritten⟩, hmem, hij⟩ := List.mem_map.mp hkey
  obtain rfl : j = i := hij
  have hcall := (entries_run hfresh _).2 _ hmem
  obtain ⟨e, he, hsome⟩ := List.mem_filterMap.mp hcall
  cases e with
  | write _ _ => cases hsome
  | call c =>
    obtain rfl := Option.some.inj hsome
    obtain ⟨before, after, rfl⟩ := List.append_of_mem he
    obtain ⟨hbytes, m, hm, hwritten⟩ := h.counts before i bytesWritten after rfl
    obtain rfl : i = m := by exact_mod_cast hm
    refine ⟨?_, List.mem_append_left _ hwritten⟩
    rw [← hbytes]
    exact AssocList.lookup_of_mem hnodup (fun _ hp => hp) hmem

theorem assembleData_sliced {buffer : ReadBuffer} {memory : Buffer} {total : Nat}
    (hmode : b.sliceBuffer = some buffer) (htotal : b.totalBytesWritten = some (total : Int)) :
    b.assembleData memory =
      some ((List.range total).map memory, { b with sliceBuffer := some buffer.disown }) := by
  unfold assembleData
  rw [hmode]
  simp only [htotal, Option.bind_eq_bind, Option.bind_some, Int.toNat_natCast]
  rw [if_neg (by omega)]

/-- A complete batch in buffer-slice mode returns what a complete batch in legacy mode returns for the
same chunks if and only if every chunk that a nonempty one follows fills its slice: the sum of the counts
is the length of the data, but the slices lie at a fixed stride. -/
theorem slices_refine_chunks {buffer : ReadBuffer} {legacyCalls : List (Call ε)}
    (hlen : ∀ i, (chunk i).length ≤ chunkSize) (hsize : n * chunkSize ≤ buffer.size)
    (hslices : (sliced n buffer chunkSize : OperationBatch ε).Delivers chunk events)
    (hlegacy : (legacy n).Uses legacyCalls)
    (hchunk : ∀ i data, .recordChunkCompletion i data ∈ legacyCalls → data = chunk i)
    (hcomplete : ((sliced n buffer chunkSize).run (OperationBatch.calls events)).isComplete = true)
    (hcomplete' : ((legacy n).run legacyCalls).isComplete = true) (memory' : Buffer) :
    (((sliced n buffer chunkSize).run (OperationBatch.calls events)).assembleData
        (memory chunkSize events)).map Prod.fst =
      (((legacy n).run legacyCalls).assembleData memory').map Prod.fst ↔
    ∀ i j : Nat, i < j → j < n → chunk j ≠ [] → (chunk i).length = chunkSize := by
  have hdone := fun {i} (hi : i < n) => hslices.complete hcomplete hi
  obtain ⟨hmode, htotal⟩ := run_mode (sliced n buffer chunkSize) (OperationBatch.calls events)
  have htotal : ((sliced n buffer chunkSize).run (OperationBatch.calls events)).totalChunks = n := htotal
  have hle : Slices.total (fun i : Nat => chunk i) n ≤ n * chunkSize := Slices.total_le (fun i => hlen i) n
  have hsum := totalBytesWritten_eq chunk
    (b := (sliced n buffer chunkSize).run (OperationBatch.calls events))
    (by rw [htotal]; exact fun i hi => (hdone hi).1)
    (by
      have hfits := buffer.size_lt
      rw [htotal]
      omega)
  have hholds : Slices.Holds (memory chunkSize events) chunkSize (fun i : Nat => chunk i) n := by
    intro i hi j hj
    rcases memory_slice hlen hslices.writes hj with hbyte | ⟨-, hnot⟩
    · exact hbyte
    · exact absurd (hdone hi).2 hnot
  have hflat : (chunkIndices n).flatMap chunk = (List.range n).flatMap fun i : Nat => chunk i := by
    rw [chunkIndices, List.flatMap_map]
    rfl
  rw [htotal] at hsum
  rw [assembleData_sliced hmode hsum, assembleData_complete hlegacy hchunk hcomplete' memory', hflat,
    ← Slices.map_range_eq_iff hholds fun i => hlen i]
  exact Option.some_inj

theorem delivers_nil (b : OperationBatch ε) (chunk : Int → List UInt8) : b.Delivers chunk [] := by
  constructor
  · exact uses_nil b
  · intro i data hmem
    cases hmem
  · intro pre index bytesWritten post hevents
    simp at hevents

/-- A slice is written. -/
theorem Delivers.write (h : b.Delivers chunk events) (i : Nat) :
    b.Delivers chunk (events ++ [.write i (chunk i)]) := by
  have hcalls : OperationBatch.calls (events ++ [.write i (chunk i)]) = OperationBatch.calls events := by
    simp [OperationBatch.calls, Event.call?]
  refine ⟨by rw [hcalls]; exact h.uses, ?_, ?_⟩
  · intro m data hmem
    rcases List.mem_append.mp hmem with hold | hnew
    · exact h.writes m data hold
    · obtain ⟨rfl, rfl⟩ := Event.write.inj (List.mem_singleton.mp hnew)
      rfl
  · intro pre index bytesWritten post hevents
    rcases cons_append_of_concat hevents with ⟨-, hcall⟩ | ⟨post', rfl⟩
    · cases hcall
    · exact h.counts pre index bytesWritten post' rfl

/-- A call; the completion of a slice comes after its bytes. -/
theorem Delivers.step (h : b.Delivers chunk events) (c : Call ε)
    (huses : b.Uses (OperationBatch.calls events ++ [c]))
    (hcounts : ∀ index bytesWritten, c = .recordSliceCompletion index bytesWritten →
      bytesWritten = (chunk index).length ∧ ∃ i : Nat, index = i ∧ .write i (chunk index) ∈ events) :
    b.Delivers chunk (events ++ [.call c]) := by
  have hcalls : OperationBatch.calls (events ++ [.call c]) = OperationBatch.calls events ++ [c] := by
    simp [OperationBatch.calls, Event.call?]
  refine ⟨by rw [hcalls]; exact huses, ?_, ?_⟩
  · intro m data hmem
    exact h.writes m data (by simpa using hmem)
  · intro pre index bytesWritten post hevents
    rcases cons_append_of_concat hevents with ⟨rfl, hcall⟩ | ⟨post', rfl⟩
    · exact hcounts index bytesWritten (Event.call.inj hcall).symm
    · exact h.counts pre index bytesWritten post' rfl

/-- Two slices are dequeued; the second one is written and completed first. -/
def twoSlices (chunk : Int → List UInt8) : List (Event ε) :=
  [.call .dequeueNextChunk, .call .dequeueNextChunk,
    .write 1 (chunk 1), .call (.recordSliceCompletion 1 (chunk 1).length),
    .write 0 (chunk 0), .call (.recordSliceCompletion 0 (chunk 0).length)]

theorem delivers_twoSlices (buffer : ReadBuffer) (chunkSize : Int) (chunk : Int → List UInt8) :
    (sliced 2 buffer chunkSize : OperationBatch ε).Delivers chunk (twoSlices chunk) := by
  have huses : (sliced 2 buffer chunkSize : OperationBatch ε).Uses [.dequeueNextChunk] :=
    (uses_nil _).concat .dequeueNextChunk rfl (by simp [Call.completes])
  have huses' : (sliced 2 buffer chunkSize : OperationBatch ε).Uses
      [.dequeueNextChunk, .dequeueNextChunk] :=
    huses.concat .dequeueNextChunk rfl (by simp [Call.completes])
  have hsecond : (sliced 2 buffer chunkSize : OperationBatch ε).Uses
      [.dequeueNextChunk, .dequeueNextChunk, .recordSliceCompletion 1 (chunk 1).length] := by
    refine huses'.concat (.recordSliceCompletion 1 (chunk 1).length) rfl ?_
    rintro _ ⟨⟩
    exact ⟨List.mem_cons_of_mem _ List.mem_cons_self, by simp [Call.completes]⟩
  have hfirst : (sliced 2 buffer chunkSize : OperationBatch ε).Uses
      [.dequeueNextChunk, .dequeueNextChunk, .recordSliceCompletion 1 (chunk 1).length,
        .recordSliceCompletion 0 (chunk 0).length] := by
    refine hsecond.concat (.recordSliceCompletion 0 (chunk 0).length) rfl ?_
    rintro _ ⟨⟩
    exact ⟨List.mem_cons_self, by simp [Call.completes]⟩
  have hissued := ((delivers_nil _ chunk).step _ huses (by simp)).step _ huses' (by simp)
  refine ((hissued.write 1).step _ hsecond ?_ |>.write 0).step _ hfirst ?_
  · rintro _ _ ⟨⟩
    exact ⟨rfl, 1, rfl, by simp⟩
  · rintro _ _ ⟨⟩
    exact ⟨rfl, 0, rfl, by simp⟩

/-- A buffer for two slices of two bytes. -/
def fourBytes : ReadBuffer := { size := 4, size_lt := by decide }

/-- The second slice is short: both modes return the three bytes. -/
theorem slices_refine_two :
    let chunk : Int → List UInt8 := fun i => if i = 0 then [5, 6] else [7]
    (((sliced 2 fourBytes 2 : OperationBatch POSIXErrorCode).run
        (OperationBatch.calls (twoSlices chunk))).assembleData
          (memory 2 (twoSlices chunk : List (Event POSIXErrorCode)))).map Prod.fst =
      (((legacy 2 : OperationBatch POSIXErrorCode).run (twoChunks chunk)).assembleData
        fun _ => none).map Prod.fst := by
  intro chunk
  refine (slices_refine_chunks (n := 2) ?_ (by decide) (delivers_twoSlices fourBytes 2 chunk)
    (uses_twoChunks chunk) (fun _ _ => mem_twoChunks) (by decide) (by decide) _).mpr ?_
  · intro i
    show (if i = 0 then [5, 6] else [7] : List UInt8).length ≤ 2
    split <;> decide
  · intro i j hij hj _
    obtain rfl : i = 0 := by omega
    rfl

/-- The first slice is short: the data hold an unwritten byte in place of the byte of the second. -/
theorem short_slice_leaves_gap :
    let chunk : Int → List UInt8 := fun i => if i = 0 then [5] else [7]
    let b := (sliced 2 fourBytes 2 : OperationBatch POSIXErrorCode).run
      (OperationBatch.calls (twoSlices chunk))
    let b' := (legacy 2 : OperationBatch POSIXErrorCode).run (twoChunks chunk)
    (sliced 2 fourBytes 2 : OperationBatch POSIXErrorCode).Delivers chunk (twoSlices chunk) ∧
      (legacy 2 : OperationBatch POSIXErrorCode).Uses (twoChunks chunk) ∧
      b.isComplete = true ∧ b'.isComplete = true ∧
      (b.assembleData (memory 2 (twoSlices chunk : List (Event POSIXErrorCode)))).map Prod.fst =
        some [some 5, none] ∧
      (b'.assembleData fun _ => none).map Prod.fst = some [some 5, some 7] :=
  ⟨delivers_twoSlices _ _ _, uses_twoChunks _, by decide, by decide, by decide, by decide⟩

end Slices

end OperationBatch

end NFSKit
