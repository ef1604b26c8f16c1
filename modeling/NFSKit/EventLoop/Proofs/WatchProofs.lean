import NFSKit.EventLoop.Proofs.SourcesProofs
import NFSKit.EventLoop.Conditions

/-!
# The sources follow libnfs

Outside `nfs_service` the two sources are on the descriptor and the socket that libnfs uses, and the
write source is active exactly when libnfs wants to send. Inside `nfs_service` they may fall behind;
the code after it makes them anew or updates them.
-/

namespace NFSKit

open Machine

variable {s t : State} {e : Event} {ino : Nat → Nat}

/-! ## A service in progress -/

namespace State

theorem finishHook_service (h : Frame.service ∈ s.stack) : Frame.service ∈ s.finishHook.stack := by
  unfold finishHook
  split
  · rename_i hstack
    rw [resume_stack]
    rw [hstack] at h
    simpa using h
  · exact h

theorem drainLoop_service (h : Frame.service ∈ s.stack) (n i : Nat) :
    Frame.service ∈ (s.drainLoop n i).stack := by
  induction n generalizing i with
  | zero => exact finishHook_service h
  | succ n ih =>
    unfold drainLoop
    split
    · exact finishHook_service h
    · split
      · exact List.mem_cons_of_mem _ h
      · exact ih (i + 1)

theorem completionHook_service (h : Frame.service ∈ s.stack) (cb : CallbackData) (ok : Bool) :
    Frame.service ∈ (s.completionHook cb ok).stack := by
  have hissue (u : State) (hu : u.stack = s.stack) :
      Frame.service ∈ u.issuePendingOperations.stack := by
    unfold issuePendingOperations
    split
    · exact finishHook_service (hu ▸ h)
    · exact drainLoop_service (hu ▸ h) _ _
  unfold completionHook handleCallbackCompletion
  split
  · apply hissue
    dsimp only
    rw [recordCompletion_eq]
    split <;> rfl
  · exact finishHook_service h

theorem fireCallback_service {id : Nat} {status : Int} {data : Option Value}
    (hs : Frame.service ∈ s.stack) (h : s.fireCallback id status data = some t) :
    Frame.service ∈ t.stack := by
  unfold fireCallback at h
  split at h
  · cases h
  · rename_i f rest hstack
    simp only [Option.bind_eq_some_iff, Option.map_eq_some_iff] at h
    obtain ⟨⟨cb, s₁⟩, htake, s₂, hnote, rfl⟩ := h
    obtain ⟨out, fhs, dirs, b, r, -, heq⟩ := callback_eq htake hnote
    rw [runCallback_eq]
    apply completionHook_service
    rw [heq]
    rw [hstack] at hs
    refine List.mem_cons_of_mem _ ?_
    rcases List.mem_cons.mp hs with hf | hrest
    · rw [← hf]
      exact List.mem_cons_self ..
    · exact List.mem_cons_of_mem _ hrest

/-- What returns inside `nfs_service` is the call of a deferred operation. -/
theorem returnFromCall_service {rc : Int} {view : LibView} {f : Frame} {rest : List Frame}
    (hnested : NestedAbove s.stack) (hstack : s.stack = f :: rest) (hs : Frame.service ∈ rest)
    (h : s.returnFromCall rc view = some t) : Frame.service ∈ t.stack := by
  have hf : f.nested := by
    by_contra hf
    rw [hstack] at hnested
    rw [hnested.rest_eq_nil (by simpa using hf)] at hs
    cases hs
  simp only [returnFromCall, hstack] at h
  cases f with
  | completionHook => cases h
  | handOver site cb ran =>
    cases site with
    | pending i op =>
      simp only at h
      split at h
      · split at h
        · cases h
        · obtain rfl := Option.some.inj h
          apply drainLoop_service
          rw [updateWriteSource_toCore, resume_stack]
          exact hs
      · obtain rfl := Option.some.inj h
        apply drainLoop_service
        rw [updateWriteSource_toCore, enqueueRequest_eq]
        exact hs
    | _ => cases hf
  | _ => cases hf

end State

/-- `nfs_service` stays in progress until it returns. -/
theorem step_service (hnested : NestedAbove s.stack) (hs : Frame.service ∈ s.stack)
    (h : step s e = some t) :
    Frame.service ∈ t.stack ∨ e.returns ∧ s.stack.head? = some .service := by
  have hbusy : s.stack.isEmpty = false := by
    cases hstack : s.stack with
    | nil =>
      rw [hstack] at hs
      cases hs
    | cons => rfl
  cases e with
  | block b => simp [step, hbusy] at h
  | callback id status data => exact .inl (State.fireCallback_service hs h)
  | ret rc view =>
    cases hstack : s.stack with
    | nil =>
      rw [hstack] at hs
      cases hs
    | cons f rest =>
      rw [hstack] at hs
      rcases List.mem_cons.mp hs with rfl | hrest
      · exact .inr ⟨rfl, rfl⟩
      · exact .inl (State.returnFromCall_service hnested hstack hrest h)
  | tick d => exact .inl (Option.some.inj h ▸ hs)
  | releaseBuffer b =>
    simp only [step] at h
    split at h
    · exact .inl (Option.some.inj h ▸ hs)
    · cases h
  | deinit q => simp [step, hbusy] at h

/-! ## Sources that are on -/

/-- The two sources are on the same socket, and the loop's notes about them are right. -/
structure Sources.On (ino : Nat → Nat) (x : Sources) (rs ws : DispatchSource) : Prop where
  read : x.readSource = some rs
  write : x.writeSource = some ws
  read_fd : rs.fd = x.currentFd
  write_fd : ws.fd = x.currentFd
  socket : rs.socket = ws.socket
  inode : x.currentSocketIno = ino ws.socket
  active : rs.suspended = false
  alive : rs.cancelled = false ∧ ws.cancelled = false
  suspensions : ws.suspensions = if x.writeSourceSuspended then 1 else 0

namespace Sources

variable {x y : Sources} {rs ws : DispatchSource}

theorem On.suspended (h : x.On ino rs ws) : ws.suspended = x.writeSourceSuspended := by
  unfold DispatchSource.suspended
  rw [h.suspensions]
  cases x.writeSourceSuspended <;> rfl

theorem On.of_timerless (h : x.On ino rs ws) (heq : y.timerless = x.timerless) : y.On ino rs ws := by
  have hread : y.timerless.readSource = x.readSource := by rw [heq]; rfl
  have hwrite : y.timerless.writeSource = x.writeSource := by rw [heq]; rfl
  have hfd : y.timerless.currentFd = x.currentFd := by rw [heq]; rfl
  have hino : y.timerless.currentSocketIno = x.currentSocketIno := by rw [heq]; rfl
  have hsuspended : y.timerless.writeSourceSuspended = x.writeSourceSuspended := by rw [heq]; rfl
  constructor
  · exact hread.trans h.read
  · exact hwrite.trans h.write
  · exact h.read_fd.trans hfd.symm
  · exact h.write_fd.trans hfd.symm
  · exact h.socket
  · exact hino.trans h.inode
  · exact h.active
  · exact h.alive
  · have hflag : y.writeSourceSuspended = x.writeSourceSuspended := hsuspended
    rw [hflag]
    exact h.suspensions

theorem On.not_off (h : x.On ino rs ws) : ¬ x.Off := by
  rintro ⟨hread, -⟩
  rw [h.read] at hread
  cases hread

theorem On.unique {rs' ws' : DispatchSource} (h : x.On ino rs ws) (h' : x.On ino rs' ws') :
    rs' = rs ∧ ws' = ws :=
  ⟨Option.some.inj (h'.read.symm.trans h.read), Option.some.inj (h'.write.symm.trans h.write)⟩

/-- `updateWriteSource` makes the write source active exactly when libnfs wants to send. -/
theorem On.update (h : x.On ino rs ws) (pollout : Bool) :
    ∃ ws', (x.updateWriteSource pollout).On ino rs ws' ∧ ws'.socket = ws.socket ∧
      (x.updateWriteSource pollout).currentFd = x.currentFd ∧
      (x.updateWriteSource pollout).writeSourceSuspended = !pollout := by
  have hsuspensions := h.suspensions
  unfold updateWriteSource
  simp only [h.write]
  cases pollout with
  | true =>
    cases hs : x.writeSourceSuspended with
    | true =>
      rw [hs] at hsuspensions
      have hresumed : ws.resume.suspensions = 0 := congrArg (· - 1) hsuspensions
      exact ⟨ws.resume, ⟨h.read, rfl, h.read_fd, h.write_fd, h.socket, h.inode, h.active, h.alive,
        hresumed⟩, rfl, rfl, rfl⟩
    | false => exact ⟨ws, h, rfl, rfl, hs⟩
  | false =>
    cases hs : x.writeSourceSuspended with
    | true => exact ⟨ws, h, rfl, rfl, hs⟩
    | false =>
      rw [hs] at hsuspensions
      have hsuspended : ws.suspend.suspensions = 1 := congrArg (· + 1) hsuspensions
      exact ⟨ws.suspend, ⟨h.read, rfl, h.read_fd, h.write_fd, h.socket, h.inode, h.active, h.alive,
        hsuspended⟩, rfl, rfl, rfl⟩

/-- Fresh sources are on the socket that libnfs uses. -/
theorem setupSources_on (x : Sources) (timeout : Int) {view : LibView}
    (hino : view.socketIno = ino view.socket) :
    ∃ rs ws, (x.setupSources timeout view).On ino rs ws ∧ ws.socket = view.socket ∧
      (x.setupSources timeout view).currentFd = view.fd := by
  unfold setupSources startTimeoutTimer
  dsimp only
  split <;> exact ⟨_, _, ⟨rfl, rfl, rfl, rfl, rfl, hino, rfl, ⟨rfl, rfl⟩, rfl⟩, rfl, rfl⟩

end Sources

/-! ## The invariant -/

/-- The sources are on the descriptor and the socket of `view`, and the write source fits the wanted
events. -/
structure Sources.Tracks (x : Sources) (ws : DispatchSource) (view : LibView) : Prop where
  fd : x.currentFd = view.fd
  socket : ws.socket = view.socket
  pollout : x.writeSourceSuspended = !view.pollout

/-- The sources are off, or on a socket; outside `nfs_service` it is the one that libnfs uses. -/
structure Follows (ino : Nat → Nat) (s : State) : Prop where
  on : s.sources.Off ∨ ∃ rs ws, s.sources.On ino rs ws
  tracks : Frame.service ∉ s.stack → 0 ≤ s.lib.fd → ∀ rs ws, s.sources.On ino rs ws →
    s.sources.Tracks ws s.lib

theorem follows_init (timeout : Int) : Follows ino (State.init timeout) where
  on := .inl ⟨rfl, rfl⟩
  tracks := by
    intro _ hfd
    have hfd : (0 : Int) ≤ -1 := hfd
    omega

/-- Where nothing is known of libnfs inside `nfs_service`, the sources only have to be on a socket. -/
theorem Follows.of_watch {x : Sources} {view : LibView} (h : t.watch = (x.timerless, view))
    (hon : x.Off ∨ ∃ rs ws, x.On ino rs ws)
    (htracks : Frame.service ∉ t.stack → 0 ≤ view.fd → ∀ rs ws, x.On ino rs ws → x.Tracks ws view) :
    Follows ino t := by
  have hsources : t.sources.timerless = x.timerless := congrArg Prod.fst h
  have hlib : t.lib = view := congrArg Prod.snd h
  constructor
  · rcases hon with hoff | ⟨rs, ws, hon⟩
    · exact .inl (State.off_of_watch (s := { t with sources := x, lib := view }) h hoff)
    · exact .inr ⟨rs, ws, hon.of_timerless hsources⟩
  · intro hservice hfd rs ws hon'
    rw [hlib] at hfd ⊢
    have htrack := htracks hservice hfd rs ws (hon'.of_timerless hsources.symm)
    constructor
    · have hcurrent : t.sources.timerless.currentFd = x.currentFd := by rw [hsources]; rfl
      exact hcurrent.trans htrack.fd
    · exact htrack.socket
    · have hsuspended : t.sources.timerless.writeSourceSuspended = x.writeSourceSuspended := by
        rw [hsources]
        rfl
      exact hsuspended.trans htrack.pollout

/-- After `updateWriteSource`, sources on the socket of `view` track it. -/
theorem Follows.of_update {view : LibView} (hf : Follows ino s)
    (h : t.watch = ((s.sources.updateWriteSource view.pollout).timerless, view))
    (hsame : Frame.service ∉ t.stack → 0 ≤ view.fd → ∀ rs ws, s.sources.On ino rs ws →
      s.sources.currentFd = view.fd ∧ ws.socket = view.socket) : Follows ino t := by
  apply Follows.of_watch h
  · rcases hf.on with hoff | ⟨rs, ws, hon⟩
    · exact .inl (hoff.updateWriteSource _)
    · obtain ⟨ws', hon', -⟩ := hon.update view.pollout
      exact .inr ⟨rs, ws', hon'⟩
  · intro hservice hfd rs ws hon
    rcases hf.on with hoff | ⟨rs₀, ws₀, hon₀⟩
    · exact absurd (hoff.updateWriteSource view.pollout) hon.not_off
    · obtain ⟨ws', hon', hsocket, hcurrent, hsuspended⟩ := hon₀.update view.pollout
      obtain ⟨rfl, rfl⟩ := hon'.unique hon
      obtain ⟨hfd', hsocket'⟩ := hsame hservice hfd rs ws₀ hon₀
      exact ⟨hcurrent.trans hfd', hsocket.trans hsocket', hsuspended⟩

/-- Where the code looks at nothing after a call, libnfs has changed nothing. -/
theorem overlooked_quiet {rc : Int} {view : LibView} {f : Frame} {rest : List Frame}
    (hnested : NestedAbove s.stack) (hcloses : ClosesQuietly s (.ret rc view))
    (hstays : SocketStays s (.ret rc view)) (hrefuses : RefusesQuietly s (.ret rc view))
    (hstack : s.stack = f :: rest) (hf : f.overlooks rc view) (hs : Frame.service ∉ s.stack)
    (hfd : 0 ≤ view.fd) :
    view.fd = s.lib.fd ∧ view.socket = s.lib.socket ∧ view.pollout = s.lib.pollout := by
  have hhead : f ∈ s.stack.head? := by simp [hstack]
  by_cases hclose : f.isClose
  · obtain ⟨hfd', hsocket, hpollout⟩ :=
      hcloses view rfl ⟨f, hstack ▸ List.mem_cons_self .., hclose⟩
    exact ⟨hfd', hsocket, hpollout (by simp [hstack, hclose])⟩
  · have hdirect : rc < 0 ∧ f.handsOver ∧ f.nested = false := by
      cases f with
      | handOver site cb ran =>
        cases site <;> simp [Frame.overlooks, Frame.handsOver, Frame.nested, Site.ctx, Site.isPending]
          at hf ⊢
        all_goals omega
      | close => exact absurd rfl hclose
      | _ => cases hf
    obtain ⟨hrc, hhands, hnest⟩ := hdirect
    have hrest : rest = [] := by
      rw [hstack] at hnested
      exact hnested.rest_eq_nil hnest
    have hsame := hstays view rfl f hhead hhands (fun _ => by simpa [Event.refuses] using hrc) hs (by
      rw [hstack, hrest]
      intro g hg
      obtain rfl := List.mem_singleton.mp hg
      simpa using hclose)
    exact ⟨hsame.1, hsame.2, hrefuses view rfl (by simpa [Event.refuses] using hrc) f hhead hhands hnest⟩

/-- One step: what libnfs changes, the code looks at afterwards. -/
theorem Follows.step (hnested : NestedAbove s.stack) (hc : CallsAlive s) (hf : Follows ino s)
    (hino : ∀ a b, ino a = ino b → ino a = 0 ∨ a = b) (hinodes : InodesTell ino e)
    (hstays : SocketStays s e) (hcloses : ClosesQuietly s e) (hrefuses : RefusesQuietly s e)
    (h : step s e = some t) : Follows ino t := by
  -- outside `nfs_service` afterwards, the step began outside or is the return of it
  have outside (he : e.returns → s.stack.head? ≠ some .service) (ht : Frame.service ∉ t.stack) :
      Frame.service ∉ s.stack := by
    intro hs
    rcases step_service hnested hs h with hkept | ⟨hret, hhead⟩
    · exact ht hkept
    · exact he hret hhead
  cases step_watch hc h with
  | kept hservice hwatch =>
    exact .of_watch hwatch hf.on fun ht hfd rs ws hon => hf.tracks (outside hservice ht) hfd rs ws hon
  | cancelled hoff =>
    exact ⟨.inl hoff, fun _ _ rs ws hon => absurd hoff hon.not_off⟩
  | @overlooked rc view f rest hstack hf' hwatch =>
    refine .of_watch hwatch hf.on fun ht hfd rs ws hon => ?_
    have hs : Frame.service ∉ s.stack := by
      refine outside (fun _ => ?_) ht
      rw [hstack]
      rintro ⟨⟩
      cases hf'
    obtain ⟨hfd', hsocket, hpollout⟩ := overlooked_quiet hnested hcloses hstays hrefuses hstack hf' hs hfd
    have htrack := hf.tracks hs (hfd' ▸ hfd) rs ws hon
    exact ⟨htrack.fd.trans hfd'.symm, htrack.socket.trans hsocket.symm, by
      rw [htrack.pollout, hpollout]⟩
  | @updated rc view site cb ran rest hstack hsite hmount hwatch =>
    refine hf.of_update hwatch fun ht hfd rs ws hon => ?_
    have hs : Frame.service ∉ s.stack := outside (fun _ => by simp [hstack]) ht
    have hsame : view.fd = s.lib.fd ∧ view.socket = s.lib.socket := by
      by_cases hclose : ∃ g ∈ s.stack, g.isClose
      · obtain ⟨hfd', hsocket, -⟩ := hcloses view rfl hclose
        exact ⟨hfd', hsocket⟩
      · refine hstays view rfl (.handOver site cb ran) (by simp [hstack]) (by simp [Frame.handsOver, hsite])
          ?_ hs ?_
        · intro hmounts
          cases site <;> first | exact absurd rfl hmount | cases hmounts
        · intro g hg
          by_contra hgc
          exact hclose ⟨g, hg, by simpa using hgc⟩
    have htrack := hf.tracks hs (hsame.1 ▸ hfd) rs ws hon
    exact ⟨htrack.fd.trans hsame.1.symm, htrack.socket.trans hsame.2.symm⟩
  | @serviced rc view rest hstack hsame hwatch =>
    refine hf.of_update hwatch fun _ hfd rs ws hon => ?_
    obtain ⟨hcurrent, hzero, hsocket⟩ := hsame hfd
    have hview := hinodes view rfl hfd
    rw [hsocket, hon.inode] at hview
    rw [hon.inode] at hzero
    exact ⟨hcurrent.symm, (hino _ _ hview).resolve_left hzero⟩
  | @made rc view f rest hstack hsets hfd hwatch =>
    obtain ⟨rs, ws, hon, hsocket, hcurrent⟩ :=
      s.sources.setupSources_on s.timeout (hinodes view rfl hfd)
    obtain ⟨ws', hon', hsocket', hcurrent', hsuspended⟩ := hon.update view.pollout
    refine .of_watch hwatch (.inr ⟨rs, ws', hon'⟩) fun _ _ rs' ws'' hon'' => ?_
    obtain ⟨rfl, rfl⟩ := hon'.unique hon''
    exact ⟨hcurrent'.trans hcurrent, hsocket'.trans hsocket, hsuspended⟩

/-- In every run in which synchronous closes and refused operations leave libnfs's socket and wanted
events as they were, the sources follow libnfs between the queue blocks: they are on its descriptor and
its socket, and the write source is active exactly when libnfs wants to send. -/
theorem sources_follow {timeout : Int} (hino : ∀ a b, ino a = ino b → ino a = 0 ∨ a = b)
    (h : Reaches step (fun s e => (InodesTell ino e ∧ SocketStays s e) ∧ ClosesQuietly s e ∧
      RefusesQuietly s e) (State.init timeout) s)
    (hidle : s.stack = []) (hfd : 0 ≤ s.lib.fd) (hset : ¬ s.sources.Off) :
    ∃ rs ws, s.sources.readSource = some rs ∧ s.sources.writeSource = some ws ∧
      rs.fd = s.lib.fd ∧ ws.fd = s.lib.fd ∧ rs.socket = s.lib.socket ∧ ws.socket = s.lib.socket ∧
      rs.suspended = false ∧ rs.cancelled = false ∧ ws.cancelled = false ∧
      (ws.suspended = false ↔ s.lib.pollout = true) := by
  have hfollows : Follows ino s := by
    have hrun := h.strengthen
    refine hrun.invariant (follows_init timeout) ?_
    rintro u e v hf ⟨⟨⟨hinodes, hstays⟩, hcloses, hrefuses⟩, hreach, -⟩ hstep
    exact hf.step (sound_of_reachable hreach).wellFormed.nested (callsAlive_of_reachable hreach) hino
      hinodes hstays hcloses hrefuses hstep
  obtain ⟨rs, ws, hon⟩ := hfollows.on.resolve_left hset
  have htrack := hfollows.tracks (by simp [hidle]) hfd rs ws hon
  refine ⟨rs, ws, hon.read, hon.write, hon.read_fd.trans htrack.fd, hon.write_fd.trans htrack.fd,
    hon.socket.trans htrack.socket, htrack.socket, hon.active, hon.alive.1, hon.alive.2, ?_⟩
  rw [hon.suspended, htrack.pollout]
  simp

/-- `nfs_service` opens another socket under the same descriptor: the sources are made anew. -/
theorem sources_follow_reconnect :
    ∃ s, run step (State.init 60000000000)
        [.block .mount, .ret 0 { fd := 5, socketIno := 1, socket := 1, pollout := true },
          .block .handleIOEvent, .callback 1 0 none,
          .ret 0 { fd := 5, socketIno := 2, socket := 2 }] = some s ∧
      ∃ rs ws, s.sources.readSource = some rs ∧ s.sources.writeSource = some ws ∧ rs.socket = 2 ∧
        ws.socket = 2 ∧ ws.suspended = true := by
  have hrun : ((run step (State.init 60000000000)
      [.block .mount, .ret 0 { fd := 5, socketIno := 1, socket := 1, pollout := true },
        .block .handleIOEvent, .callback 1 0 none,
        .ret 0 { fd := 5, socketIno := 2, socket := 2 }]).any fun s =>
      s.stack = [] ∧ s.lib = { fd := 5, socketIno := 2, socket := 2 } ∧
        s.sources.readSource ≠ none) = true := by
    decide +kernel
  have hmeets : meets step (fun s e => decide ((InodesTell (fun x => x) e ∧ SocketStays s e) ∧
      ClosesQuietly s e ∧ RefusesQuietly s e)) (State.init 60000000000)
      [.block .mount, .ret 0 { fd := 5, socketIno := 1, socket := 1, pollout := true },
        .block .handleIOEvent, .callback 1 0 none,
        .ret 0 { fd := 5, socketIno := 2, socket := 2 }] = true := by
    decide +kernel
  obtain ⟨s, hs, hfacts⟩ := (Option.any_eq_true _ _).mp hrun
  obtain ⟨hidle, hlib, hset⟩ := of_decide_eq_true hfacts
  have hreaches := reaches_of_run (fun _ _ => of_decide_eq_true) hs hmeets
  obtain ⟨rs, ws, hread, hwrite, -, -, hrs, hws, -, -, -, hpollout⟩ :=
    sources_follow (fun _ _ heq => .inr heq) hreaches hidle (by simp [hlib]) (fun hoff => hset hoff.1)
  rw [hlib] at hrs hws hpollout
  exact ⟨s, hs, rs, ws, hread, hwrite, hrs, hws, by simpa using hpollout⟩

/-- A synchronous close reconnects, or leaves data to be sent: the sources stay on the socket that is
gone, and the write source stays off. -/
theorem sources_miss_close :
    (∃ s, Reaches step (fun s e => InodesTell (fun x => x) e ∧ SocketStays s e)
        (State.init 60000000000) s ∧ s.stack = [] ∧ s.context.isSome ∧ s.lib.fd = 5 ∧
      s.lib.socket = 2 ∧ s.sources.readSource.map DispatchSource.socket = some 1 ∧
      s.sources.writeSource.map DispatchSource.socket = some 1) ∧
    ∃ s, Reaches step (fun s e => InodesTell (fun x => x) e ∧ SocketStays s e)
        (State.init 60000000000) s ∧ s.stack = [] ∧ s.context.isSome ∧ s.lib.fd = 5 ∧
      s.lib.pollout = true ∧ s.sources.writeSource.map DispatchSource.suspended = some true := by
  have hreconnect : ((run step (State.init 60000000000)
      [.block .mount, .ret 0 { fd := 5, socketIno := 1, socket := 1 }, .block .handleIOEvent,
        .callback 1 0 none, .ret 0 { fd := 5, socketIno := 1, socket := 1 }, .block Block.openFile,
        .ret 0 { fd := 5, socketIno := 1, socket := 1 }, .block .handleIOEvent,
        .callback 2 0 (some (.pointer 9)), .ret 0 { fd := 5, socketIno := 1, socket := 1 },
        .block (.registerHandle 1), .block (.closeFileFireAndForget 1),
        .ret 0 { fd := 5, socketIno := 2, socket := 2 }]).any fun s =>
      s.stack = [] ∧ s.context.isSome ∧ s.lib.fd = 5 ∧ s.lib.socket = 2 ∧
        s.sources.readSource.map DispatchSource.socket = some 1 ∧
        s.sources.writeSource.map DispatchSource.socket = some 1) = true := by
    decide +kernel
  have hpending : ((run step (State.init 60000000000)
      [.block .mount, .ret 0 { fd := 5, socketIno := 1, socket := 1 }, .block .handleIOEvent,
        .callback 1 0 none, .ret 0 { fd := 5, socketIno := 1, socket := 1 }, .block Block.openFile,
        .ret 0 { fd := 5, socketIno := 1, socket := 1 }, .block .handleIOEvent,
        .callback 2 0 (some (.pointer 9)), .ret 0 { fd := 5, socketIno := 1, socket := 1 },
        .block (.registerHandle 1), .block (.closeFileFireAndForget 1),
        .ret 0 { fd := 5, socketIno := 1, socket := 1, pollout := true }]).any fun s =>
      s.stack = [] ∧ s.context.isSome ∧ s.lib.fd = 5 ∧ s.lib.pollout = true ∧
        s.sources.writeSource.map DispatchSource.suspended = some true) = true := by
    decide +kernel
  have hmeets (view : LibView) (hview : view = { fd := 5, socketIno := 2, socket := 2 } ∨
      view = { fd := 5, socketIno := 1, socket := 1, pollout := true }) :
      meets step (fun s e => decide (InodesTell (fun x => x) e ∧ SocketStays s e))
        (State.init 60000000000)
        [.block .mount, .ret 0 { fd := 5, socketIno := 1, socket := 1 }, .block .handleIOEvent,
          .callback 1 0 none, .ret 0 { fd := 5, socketIno := 1, socket := 1 }, .block Block.openFile,
          .ret 0 { fd := 5, socketIno := 1, socket := 1 }, .block .handleIOEvent,
          .callback 2 0 (some (.pointer 9)), .ret 0 { fd := 5, socketIno := 1, socket := 1 },
          .block (.registerHandle 1), .block (.closeFileFireAndForget 1), .ret 0 view] = true := by
    rcases hview with rfl | rfl <;> decide +kernel
  obtain ⟨s, hs, hfacts⟩ := (Option.any_eq_true _ _).mp hreconnect
  obtain ⟨u, hu, hfacts'⟩ := (Option.any_eq_true _ _).mp hpending
  exact ⟨⟨s, reaches_of_run (fun _ _ => of_decide_eq_true) hs (hmeets _ (.inl rfl)),
      of_decide_eq_true hfacts⟩,
    u, reaches_of_run (fun _ _ => of_decide_eq_true) hu (hmeets _ (.inr rfl)),
      of_decide_eq_true hfacts'⟩

end NFSKit
