import NFSKit.Proofs.ReadRequestsProofs

/-!
# Proofs: reading a whole file

How the task group of `contentsUsingPreallocatedBuffer` ends, for every order in which its children
finish: while no child has failed and the handler has not said `false`, the body counts and reports; then
the first failure or the first `false` decides. What the buffer holds does not depend on the order.
-/

namespace NFSKit.NFSClient

open Checked Chunks

variable {progress : Progress} {fileSize : Int} {c : Collector} {cs rest : List Completion}

/-! ## Awaiting the children -/

/-- The errors of the children that fail. -/
def failures (cs : List Completion) : List POSIXErrorCode :=
  cs.filterMap fun c =>
    match c.result with
    | .ok _ => none
    | .error e => some e

/-- The running totals of the numbers, from a total on. -/
def totals (total : Nat) : List Nat → List Nat
  | [] => []
  | n :: ns => (total + n) :: totals (total + n) ns

/-- The handler lets the reads go on at every one of these totals; `n` calls came before. -/
def GoesOn (progress : Progress) (fileSize : Int) (n total : Nat) (counts : List Nat) : Prop :=
  ∀ (i v : Nat), (totals total counts)[i]? = some v → progress (n + i) v fileSize = true

@[simp] theorem totals_length (total : Nat) (ns : List Nat) :
    (totals total ns).length = ns.length := by
  induction ns generalizing total with
  | nil => rfl
  | cons n ns ih => simp [totals, ih]

theorem totals_getElem? (total : Nat) (ns : List Nat) (i : Nat) (hi : i < ns.length) :
    (totals total ns)[i]? = some (total + (ns.take (i + 1)).sum) := by
  induction ns generalizing total i with
  | nil => simp at hi
  | cons n ns ih =>
    cases i with
    | zero => simp [totals]
    | succ i =>
      simp only [List.length_cons] at hi
      have := ih (total + n) i (by omega)
      simp only [totals, List.getElem?_cons_succ, this, List.take_succ_cons, List.sum_cons,
        Nat.add_assoc]

theorem failures_cons_ok {r : ReadRequest} {n : Nat} :
    failures (⟨r, .ok n⟩ :: cs) = failures cs := rfl

theorem failures_cons_error {r : ReadRequest} {e : POSIXErrorCode} :
    failures (⟨r, .error e⟩ :: cs) = e :: failures cs := rfl

/-- The collector after some more reads have been counted and reported. -/
def Collector.count (c : Collector) (counts : List Nat) : Collector :=
  { c with
    totalBytesRead := c.totalBytesRead + counts.sum
    reported := c.reported ++ (totals c.totalBytesRead counts).map fun n : Nat => (n : Int) }

/-- One more read has succeeded. -/
theorem awaitReads_ok {r : ReadRequest} {n : Nat} (hc : c.cancelledByProgress = false) :
    awaitReads (some progress) fileSize c (⟨r, .ok n⟩ :: cs)
      = if progress c.reported.length ((c.totalBytesRead + n : Nat) : Int) fileSize = true then
          awaitReads (some progress) fileSize (c.count [n]) cs
        else drainReads (some progress) fileSize
          { c.count [n] with cancelledByProgress := true } cs := by
  have hreport : ({ c with totalBytesRead := c.totalBytesRead + n } : Collector).report
      (some progress) fileSize
        = (c.count [n], !progress c.reported.length ((c.totalBytesRead + n : Nat) : Int) fileSize) := by
    simp [Collector.report, Collector.count, totals, hc]
  rw [awaitReads, hreport]
  cases progress c.reported.length ((c.totalBytesRead + n : Nat) : Int) fileSize with
  | true => rfl
  | false => rfl

/-- One more read has succeeded, and the handler is not called any more. -/
theorem awaitReads_ok_cancelled {p : Option Progress} {r : ReadRequest} {n : Nat}
    (hc : c.cancelledByProgress = true) :
    awaitReads p fileSize c (⟨r, .ok n⟩ :: cs)
      = awaitReads p fileSize { c with totalBytesRead := c.totalBytesRead + n } cs := by
  have hreport : ({ c with totalBytesRead := c.totalBytesRead + n } : Collector).report p fileSize
      = ({ c with totalBytesRead := c.totalBytesRead + n }, false) := by
    simp [Collector.report, hc]
  rw [awaitReads, hreport]
  simp

/-- After the handler has said `false` it is not called any more, and the first failure counts. -/
theorem awaitReads_cancelled {p : Option Progress} (h : c.cancelledByProgress = true) :
    (awaitReads p fileSize c cs).thrown = some ((failures cs).head?.getD .ECANCELED) ∧
      (awaitReads p fileSize c cs).collector.reported = c.reported := by
  induction cs generalizing c with
  | nil => simp [awaitReads, finishBody, h, failures]
  | cons child cs ih =>
    obtain ⟨r, _ | n⟩ := child
    · simp [awaitReads, failures]
    · rw [failures_cons_ok, awaitReads_ok_cancelled h]
      exact ih h

/-- In the loop that drains the group, the first failure is lost, and the second one counts. -/
theorem drainReads_cancelled {p : Option Progress} (h : c.cancelledByProgress = true) :
    (drainReads p fileSize c cs).thrown = some ((failures cs)[1]?.getD .ECANCELED) ∧
      (drainReads p fileSize c cs).collector.reported = c.reported := by
  induction cs with
  | nil => simp [drainReads, finishBody, h, failures]
  | cons child cs ih =>
    obtain ⟨r, e | n⟩ := child
    · rw [drainReads, failures_cons_error, List.getElem?_cons_succ, ← List.head?_eq_getElem?]
      exact awaitReads_cancelled h
    · rw [drainReads, failures_cons_ok]
      exact ih

/-- The body only ends well if every child has. -/
theorem ok_of_not_thrown {p : Option Progress} (h : (awaitReads p fileSize c cs).thrown = none) :
    ∀ child ∈ cs, ∃ n, child.result = .ok n := by
  induction cs generalizing c with
  | nil =>
    intro child hchild
    cases hchild
  | cons first cs ih =>
    obtain ⟨r, e | n⟩ := first
    · cases h
    · rw [awaitReads] at h
      dsimp only at h
      split at h
      · rw [(drainReads_cancelled rfl).1] at h
        cases h
      · intro child hchild
        rcases List.mem_cons.mp hchild with rfl | hchild
        · exact ⟨n, rfl⟩
        · exact ih h child hchild

theorem goesOn_nil {n total : Nat} : GoesOn progress fileSize n total [] := by
  intro i v hv
  simp [totals] at hv

theorem goesOn_cons {n total count : Nat} {counts : List Nat} :
    GoesOn progress fileSize n total (count :: counts) ↔
      progress n ((total + count : Nat) : Int) fileSize = true ∧
        GoesOn progress fileSize (n + 1) (total + count) counts := by
  constructor
  · intro h
    refine ⟨h 0 _ rfl, fun i v hv => ?_⟩
    have := h (i + 1) v hv
    rwa [show n + (i + 1) = n + 1 + i by omega] at this
  · rintro ⟨hnow, hlater⟩ i v hv
    cases i with
    | zero =>
      obtain rfl : total + count = v := Option.some.inj hv
      exact hnow
    | succ i =>
      have := hlater i v hv
      rwa [show n + 1 + i = n + (i + 1) by omega] at this

/-- Reads that succeed and let the others go on are counted and reported one after the other. -/
theorem awaitReads_append {before : List (ReadRequest × Nat)} (rest : List Completion)
    (hc : c.cancelledByProgress = false)
    (h : GoesOn progress fileSize c.reported.length c.totalBytesRead (before.map (·.2))) :
    awaitReads (some progress) fileSize c (before.map (fun b => ⟨b.1, .ok b.2⟩) ++ rest)
      = awaitReads (some progress) fileSize (c.count (before.map (·.2))) rest := by
  induction before generalizing c with
  | nil => simp [Collector.count, totals]
  | cons b before ih =>
    obtain ⟨hnow, hlater⟩ := goesOn_cons.mp h
    have hnow : progress c.reported.length ((c.totalBytesRead + b.2 : Nat) : Int) fileSize = true :=
      hnow
    have hrest := ih (c := c.count [b.2]) hc (by simpa [Collector.count, totals] using hlater)
    rw [List.map_cons, List.cons_append, awaitReads_ok hc, if_pos hnow, hrest]
    simp [Collector.count, totals, Nat.add_assoc]

/-- The reads up to the first failure or the first `false` of the handler. -/
theorem exists_before (progress : Progress) (fileSize : Int) (n total : Nat) (cs : List Completion) :
    ∃ before : List (ReadRequest × Nat), GoesOn progress fileSize n total (before.map (·.2)) ∧
      (cs = before.map (fun b => ⟨b.1, .ok b.2⟩) ∨
        ∃ r result rest, cs = before.map (fun b => ⟨b.1, .ok b.2⟩) ++ ⟨r, result⟩ :: rest ∧
          ∀ bytesRead, result = .ok bytesRead →
            progress (n + before.length)
              ((total + (before.map (·.2)).sum + bytesRead : Nat) : Int) fileSize = false) := by
  induction cs generalizing n total with
  | nil => exact ⟨[], goesOn_nil, Or.inl rfl⟩
  | cons child cs ih =>
    obtain ⟨r, e | bytesRead⟩ := child
    · exact ⟨[], goesOn_nil, Or.inr ⟨r, .error e, cs, rfl, fun _ h => by cases h⟩⟩
    · by_cases hp : progress n ((total + bytesRead : Nat) : Int) fileSize = true
      · obtain ⟨before, hgo, h⟩ := ih (n + 1) (total + bytesRead)
        refine ⟨(r, bytesRead) :: before, goesOn_cons.mpr ⟨hp, hgo⟩, ?_⟩
        rcases h with rfl | ⟨r', result, rest, rfl, hstop⟩
        · exact Or.inl rfl
        · refine Or.inr ⟨r', result, rest, rfl, fun m hm => ?_⟩
          have := hstop m hm
          simp only [List.length_cons, List.map_cons, List.sum_cons]
          rwa [show n + (before.length + 1) = n + 1 + before.length by omega,
            show total + (bytesRead + (before.map (·.2)).sum) + m
              = total + bytesRead + (before.map (·.2)).sum + m by omega]
      · refine ⟨[], goesOn_nil, Or.inr ⟨r, .ok bytesRead, cs, rfl, ?_⟩⟩
        rintro m ⟨⟩
        simpa using hp

/-! ## How the call ends -/

/-- What the body has not awaited is the end of the children. -/
theorem left_suffix (progress : Option Progress) (fileSize : Int) (cs : List Completion) :
    ∀ c, (awaitReads progress fileSize c cs).left <:+ cs ∧
      (drainReads progress fileSize c cs).left <:+ cs := by
  induction cs with
  | nil =>
    intro c
    simp [awaitReads, drainReads, finishBody]
  | cons child cs ih =>
    intro c
    obtain ⟨r, e | n⟩ := child
    · constructor
      · exact List.suffix_cons _ _
      · rw [drainReads]
        exact (ih c).1.trans (List.suffix_cons _ _)
    · constructor
      · rw [awaitReads]
        dsimp only
        split
        · exact (ih _).2.trans (List.suffix_cons _ _)
        · exact (ih _).1.trans (List.suffix_cons _ _)
      · rw [drainReads]
        exact (ih c).2.trans (List.suffix_cons _ _)

section Ending

variable {size bytesRead : Nat} {before : List (ReadRequest × Nat)}

/-- Every child is awaited, whatever happens. -/
theorem awaited_eq (file : List UInt8) (size : Nat) (progress : Option Progress)
    (cs : List Completion) :
    (contentsUsingPreallocatedBuffer file size progress cs).awaited = cs := by
  obtain ⟨consumed, hsplit⟩ := (left_suffix progress size cs {}).1
  unfold contentsUsingPreallocatedBuffer
  dsimp only
  generalize (awaitReads progress size {} cs).left = left at hsplit
  subst hsplit
  simp

/-- No child fails and the handler never says `false`. -/
theorem exit_of_goesOn (file : List UInt8) (h : GoesOn progress size 0 0 (before.map (·.2))) :
    (contentsUsingPreallocatedBuffer file size (some progress)
        (before.map fun b => ⟨b.1, .ok b.2⟩)).result
      = .ok ((List.range size).map
          ((before.map fun b => ⟨b.1, .ok b.2⟩).foldl (Buffer.complete file) fun _ => none)) ∧
    (contentsUsingPreallocatedBuffer file size (some progress)
        (before.map fun b => ⟨b.1, .ok b.2⟩)).reported
      = (totals 0 (before.map (·.2))).map fun n : Nat => (n : Int) := by
  have hbody := awaitReads_append (c := {}) [] rfl h
  rw [List.append_nil] at hbody
  unfold contentsUsingPreallocatedBuffer
  rw [hbody]
  simp [awaitReads, finishBody, Collector.count]

/-- A child fails first. -/
theorem exit_of_error (file : List UInt8) (r : ReadRequest) (e : POSIXErrorCode)
    (rest : List Completion) (h : GoesOn progress size 0 0 (before.map (·.2))) :
    (contentsUsingPreallocatedBuffer file size (some progress)
        (before.map (fun b => ⟨b.1, .ok b.2⟩) ++ ⟨r, .error e⟩ :: rest)).result = .error e ∧
    (contentsUsingPreallocatedBuffer file size (some progress)
        (before.map (fun b => ⟨b.1, .ok b.2⟩) ++ ⟨r, .error e⟩ :: rest)).reported
      = (totals 0 (before.map (·.2))).map fun n : Nat => (n : Int) := by
  have hbody := awaitReads_append (c := {}) (⟨r, .error e⟩ :: rest) rfl h
  unfold contentsUsingPreallocatedBuffer
  rw [hbody]
  simp [awaitReads, Collector.count]

/-- The handler says `false` first. -/
theorem exit_of_stop (file : List UInt8) (r : ReadRequest) (rest : List Completion)
    (h : GoesOn progress size 0 0 (before.map (·.2)))
    (hstop : progress before.length (((before.map (·.2)).sum + bytesRead : Nat) : Int) size = false) :
    (contentsUsingPreallocatedBuffer file size (some progress)
        (before.map (fun b => ⟨b.1, .ok b.2⟩) ++ ⟨r, .ok bytesRead⟩ :: rest)).result
      = .error ((failures rest)[1]?.getD .ECANCELED) ∧
    (contentsUsingPreallocatedBuffer file size (some progress)
        (before.map (fun b => ⟨b.1, .ok b.2⟩) ++ ⟨r, .ok bytesRead⟩ :: rest)).reported
      = (totals 0 (before.map (·.2))).map (fun n : Nat => (n : Int)) ++
          [(((before.map (·.2)).sum + bytesRead : Nat) : Int)] := by
  have hbody := awaitReads_append (c := {}) (⟨r, .ok bytesRead⟩ :: rest) rfl h
  have hcount : (({} : Collector).count (before.map (·.2))).reported.length = before.length := by
    simp [Collector.count]
  have htotal : (({} : Collector).count (before.map (·.2))).totalBytesRead
      = (before.map (·.2)).sum := by
    simp [Collector.count]
  rw [awaitReads_ok rfl, hcount, htotal, hstop, if_neg (by decide)] at hbody
  obtain ⟨hthrown, hreported⟩ := @drainReads_cancelled size
    { (({} : Collector).count (before.map (·.2))).count [bytesRead] with
      cancelledByProgress := true } rest (some progress) rfl
  unfold contentsUsingPreallocatedBuffer
  rw [hbody]
  dsimp only
  rw [hthrown, hreported]
  simp [Collector.count, totals]

end Ending

/-! ## Cancelling -/

/-- What a cancelled read promises: after the handler has said `false` it is not called again, every
child is awaited and `ECANCELED` is thrown; if it never says so, the error of a failed child is thrown. -/
structure CancelsFaithfully (progress : Progress) (size : Nat) (cs : List Completion)
    (exit : ReadExit) : Prop where
  stopped : ∀ (n : Nat) (v : Int), exit.reported[n]? = some v → progress n v size = false →
    n + 1 = exit.reported.length ∧ exit.awaited = cs ∧ exit.result = .error .ECANCELED
  failed : (∀ (n : Nat) (v : Int), exit.reported[n]? = some v → progress n v size = true) →
    failures cs ≠ [] → ∃ e ∈ failures cs, exit.result = .error e

/-- `rest` are the children that finish after the one at which the handler first says `false`. -/
def StopsBefore (progress : Progress) (size : Nat) (cs rest : List Completion) : Prop :=
  ∃ (before : List (ReadRequest × Nat)) (r : ReadRequest) (bytesRead : Nat),
    cs = before.map (fun b => ⟨b.1, .ok b.2⟩) ++ ⟨r, .ok bytesRead⟩ :: rest ∧
    GoesOn progress size 0 0 (before.map (·.2)) ∧
    progress before.length (((before.map (·.2)).sum + bytesRead : Nat) : Int) size = false

/-- The handler has gone on at every value that it was given. -/
theorem goesOn_reported {counts : List Nat} (h : GoesOn progress fileSize 0 0 counts) {n : Nat}
    {v : Int} (hv : ((totals 0 counts).map fun n : Nat => (n : Int))[n]? = some v) :
    progress n v fileSize = true := by
  rw [List.getElem?_map] at hv
  obtain ⟨t, ht, rfl⟩ := Option.map_eq_some_iff.mp hv
  simpa using h n t ht

/-- A cancelled read ends as promised if and only if, of the children that finish after the handler has
said `false`, the second one that fails does so with `ECANCELED`, or there is no second one. -/
theorem cancelsFaithfully_iff (file : List UInt8) (size : Nat) (progress : Progress)
    (cs : List Completion) :
    CancelsFaithfully progress size cs
        (contentsUsingPreallocatedBuffer file size (some progress) cs) ↔
      ∀ rest, StopsBefore progress size cs rest →
        ∀ e, (failures rest)[1]? = some e → e = .ECANCELED := by
  constructor
  · rintro h rest ⟨before, r, bytesRead, rfl, hgo, hstop⟩ e he
    obtain ⟨hresult, hreported⟩ := exit_of_stop file r rest hgo hstop
    have hlast := h.stopped before.length ((before.map (·.2)).sum + bytesRead : Nat)
      (by rw [hreported]; simp) hstop
    rw [hlast.2.2, he] at hresult
    cases hresult
    rfl
  · intro h
    obtain ⟨before, hgo, rfl | ⟨r, result, rest, rfl, hstop⟩⟩ := exists_before progress size 0 0 cs
    · obtain ⟨hresult, hreported⟩ := exit_of_goesOn file hgo
      constructor
      · intro n v hv hfalse
        rw [hreported] at hv
        rw [goesOn_reported hgo hv] at hfalse
        cases hfalse
      · intro _ hfail
        refine absurd ?_ hfail
        simp [failures]
    · cases result with
      | error e =>
        obtain ⟨hresult, hreported⟩ := exit_of_error file r e rest hgo
        constructor
        · intro n v hv hfalse
          rw [hreported] at hv
          rw [goesOn_reported hgo hv] at hfalse
          cases hfalse
        · intro _ _
          exact ⟨e, by simp [failures], hresult⟩
      | ok bytesRead =>
        have hstop : progress before.length (((before.map (·.2)).sum + bytesRead : Nat) : Int) size
            = false := by simpa using hstop bytesRead rfl
        obtain ⟨hresult, hreported⟩ := exit_of_stop file r rest hgo hstop
        have hcancel : (failures rest)[1]?.getD .ECANCELED = .ECANCELED := by
          rcases hsecond : (failures rest)[1]? with _ | e
          · rfl
          · exact h rest ⟨before, r, bytesRead, rfl, hgo, hstop⟩ e hsecond
        constructor
        · intro n v hv hfalse
          refine ⟨?_, awaited_eq _ _ _ _, hresult.trans (by rw [hcancel])⟩
          rw [hreported] at hv ⊢
          rcases Nat.lt_or_ge n before.length with hlt | hge
          · rw [List.getElem?_append_left (by simpa using hlt)] at hv
            rw [goesOn_reported hgo hv] at hfalse
            cases hfalse
          · have hn : n < ((totals 0 (before.map (·.2))).map (fun n : Nat => (n : Int)) ++
                [(((before.map (·.2)).sum + bytesRead : Nat) : Int)]).length :=
              (List.getElem?_eq_some_iff.mp hv).1
            simp only [List.length_append, List.length_map, totals_length, List.length_cons,
              List.length_nil] at hn ⊢
            omega
        · intro htrue _
          have hlast := htrue before.length ((before.map (·.2)).sum + bytesRead : Nat)
            (by rw [hreported]; simp)
          rw [hstop] at hlast
          cases hlast

/-- Three reads of four megabytes each. The handler stops the call after the first, and the two others
fail: the error of the third is thrown. -/
theorem cancel_replaced_by_failure :
    ¬∀ (file : List UInt8) (size : Nat) (progress : Progress) (cs : List Completion),
      CancelsFaithfully progress size cs
        (contentsUsingPreallocatedBuffer file size (some progress) cs) := by
  intro h
  have hstopped := (h [] 12582912 (fun _ _ _ => false)
    [⟨⟨0, 0, 0, 4194304⟩, .ok 4194304⟩, ⟨⟨1, 4194304, 4194304, 4194304⟩, .error POSIXErrorCode.EIO⟩,
      ⟨⟨2, 8388608, 8388608, 4194304⟩, .error POSIXErrorCode.EIO⟩]).stopped 0 4194304 rfl rfl
  have hresult : Except.error POSIXErrorCode.EIO = Except.error POSIXErrorCode.ECANCELED :=
    hstopped.2.2
  cases hresult

end NFSKit.NFSClient
