import TransEncrypt.DaemonProofs

/-! # The loop of the daemon

    The parent makes a socket, and then accepts one connection after the other and handles the
    request on it.  Whatever fails is tried again, and nothing bounds the number of turns.

    * `turn`, `parent`: one turn of the loop it is in, and any number of them;
    * `received`: the requests that a run reads, told from the answers of the host alone;
    * `Idle`: between two requests the process holds what it held at the start and the socket;
    * `parent_runs`: every run answers each request by itself and goes back to waiting, or it
      ends at a request that leads to a null token or behind the buffer. -/

namespace TeServer

open Posix Overlay TeHeader Hoare TeProgram CString Numeral TeDaemon

/-! ## Sockets -/

/-- An inode that no name denotes. -/
def reserve (fs : FileStore) : FileStore where
  names := fs.names
  data := fs.data
  next := fs.next + 1
  names_lt := fun p i h => Nat.lt_succ_of_lt (fs.names_lt p i h)

theorem reserve_le (fs : FileStore) : fs.next ≤ (reserve fs).next := Nat.le_succ _

theorem reserve_lt (fs : FileStore) : fs.next < (reserve fs).next := Nat.lt_succ_self _

/-- The description is not that of a regular file. -/
def irregular (k : Kernel) (id : Nat) : Kernel :=
  { k with
    desc := Function.update k.desc id { k.desc id with regular := false }
    desc_lt := by
      intro id' h
      by_cases hid : id' = id
      · rw [hid, Function.update_self]
        exact k.desc_lt id (hid ▸ h)
      · rw [Function.update_of_ne hid]
        exact k.desc_lt id' h }

/-- A new socket, or none. -/
def sysSocket (k : Kernel) : Int × Kernel :=
  if k.answer.fails then (-1, k.tock 1)
  else
    let opened := ((k.tock 1).setFiles (reserve k.files) (reserve_le k.files)).install
      k.answer.hint k.files.next { acc := .rdwr } (reserve_lt k.files)
    (opened.1, irregular opened.2 k.nextDesc)

/-- A connection to a socket that is there. -/
def sysAccept (k : Kernel) (s : Int) : Int × Kernel :=
  if k.InUse s then sysSocket k else (-1, k.tock 1)

/-- `socket_local_server` of the platform: a socket that is bound and listens. -/
def socket_local_server : Sys Int := kernelCall sysSocket

def accept (s : Int) : Sys Int := kernelCall (fun k => sysAccept k s)

/-- `fcntl(fd, F_SETFD, FD_CLOEXEC)`: nothing is executed. -/
def fcntl_setfd (_ : Int) : Sys Unit := kernelCall (fun k => ((), k.tock 1))

/-! ## The loop -/

/-- Which of the two loops the parent is in. -/
inductive Phase where
  | making
  | serving (s : Int)
  deriving DecidableEq, Repr

/-- One turn of the loop; `stale` is what the buffer of the request holds before. -/
def turn (signed : Bool) (long : Nat) (stale : List UInt8) : Phase → Sys (Phase × List Outcome)
  | .making => do
      let s ← socket_local_server
      if s < 0 then pure (.making, [])
      else do
        let _ ← fcntl_setfd s
        pure (.serving s, [])
  | .serving s => do
      let fd ← accept s
      if fd < 0 then pure (.serving s, [])
      else do
        let _ ← fcntl_setfd fd
        let outcome ← handle_request signed long stale fd
        pure (.serving s, [outcome])

/-- The parent's side of `main`, for as many turns as there are buffers. -/
def parent (signed : Bool) (long : Nat) : List (List UInt8) → Phase → Sys (Phase × List Outcome)
  | [], phase => pure (phase, [])
  | stale :: stales, phase => do
      let r ← turn signed long stale phase
      let rest ← parent signed long stales r.1
      pure (rest.1, r.2 ++ rest.2)

/-! ## What it is meant to do -/

/-- What one `read` of a request delivers. -/
def arrived (a : Answer) : List UInt8 :=
  if a.fails then [] else a.arrives.take (a.cut command_package_size)

/-- The buffer of a request, if anything was delivered. -/
def request (stale : List UInt8) (a : Answer) : Option (List UInt8) :=
  if arrived a = [] then none else some (memcpy stale 0 (arrived a))

/-- The requests of the connections that are accepted from the `t`-th call on.  To make a socket
    takes two calls, to handle a request four. -/
def received (host : Host) : List (List UInt8) → Bool → Nat → List (Option (List UInt8))
  | [], _, _ => []
  | stale :: stales, serving, t =>
    if (host.answer t).fails then received host stales serving (t + 1)
    else if serving then
      request stale (host.answer (t + 2)) :: received host stales true (t + 4)
    else received host stales true (t + 2)

/-- A request that the process does not live to answer: it is known for the command, and its
    text, which is not empty, has less than two fields, or neither a NUL nor two fields with a
    comma behind them. -/
def Deadly (signed : Bool) : Option (List UInt8) → Prop
  | none => False
  | some buffer => buffer.headD 0 = 0x81 ∧ signed = false ∧ (buffer.drop 1).head? ≠ some 0 ∧
      ((fields buffer).length < 2 ∨ ¬ Bounded (buffer.drop 1))

/-- What the others are answered: what they ask for where a `char` is unsigned, and nothing is
    known for a command where it is signed. -/
def answered (signed : Bool) (long : Nat) : Option (List UInt8) → Outcome
  | none => .no_request
  | some buffer =>
    if signed then .bad_command (promote signed (buffer.headD 0)) else asked signed long buffer

/-- The descriptors: those of the start, and the socket. -/
def Phase.Holding : Phase → List (Int × Nat) → List (Int × Nat) → Prop
  | .making, l, l' => l' = l
  | .serving s, l, l' => ∃ id, l' = (s, id) :: l

/-- The process waits, and nothing is left of the requests it has handled. -/
structure Idle (w : World) (phase : Phase) (w' : World) : Prop where
  table : w'.file_info_list = w.file_info_list
  names : w'.kern.files.names = w.kern.files.names
  data : w'.kern.files.data = w.kern.files.data
  host : w'.kern.host = w.kern.host
  holding : phase.Holding w.kern.fds w'.kern.fds
  nextDesc : w.kern.nextDesc ≤ w'.kern.nextDesc
  desc : ∀ id, id < w.kern.nextDesc → w'.kern.desc id = w.kern.desc id

def Phase.isServing : Phase → Bool
  | .making => false
  | .serving _ => true

/-! ## One request -/

section Dispatch

variable {signed : Bool} {long : Nat} {buffer : List UInt8} {w : World}

/-- **A dispatch** is answered exactly when the request is not deadly. -/
theorem dispatch_cases :
    (¬ Deadly signed (some buffer) ∧
      dispatch signed long buffer w = .ok (answered signed long (some buffer), w)) ∨
    (Deadly signed (some buffer) ∧ dispatch signed long buffer w = .error .undefined) := by
  by_cases hknown : buffer.headD 0 = 0x81 ∧ signed = false
  · obtain ⟨hcommand, hsigned⟩ := hknown
    have hanswered : answered signed long (some buffer) = asked signed long buffer := by
      rw [answered, hsigned]
      rfl
    rw [hanswered]
    by_cases hempty : (buffer.drop 1).head? = some 0
    · refine .inl ⟨fun h => h.2.2.1 hempty, ?_⟩
      rw [asked, if_pos hcommand, fields_empty hempty, dispatch]
      simp only [if_pos (promote_convert.mpr ⟨hcommand, hsigned⟩), if_pos hempty]
      rfl
    by_cases hin : Bounded (buffer.drop 1)
    swap
    · -- the search for the fields leaves the buffer
      refine .inr ⟨⟨hcommand, hsigned, hempty, .inr hin⟩, ?_⟩
      rw [dispatch]
      simp only [if_pos (promote_convert.mpr ⟨hcommand, hsigned⟩), if_neg hempty, if_pos hin]
      rfl
    rw [dispatch_convert hcommand hsigned hin hempty, asked, if_pos hcommand]
    cases hf : fields buffer with
    | nil => exact .inr ⟨⟨hcommand, hsigned, hempty, .inl (by rw [hf]; decide)⟩, rfl⟩
    | cons s_fd rest =>
        cases rest with
        | nil =>
            exact .inr ⟨⟨hcommand, hsigned, hempty, .inl (by rw [hf]; exact Nat.one_lt_two)⟩, rfl⟩
        | cons s_pid rest =>
            refine .inl ⟨fun h => ?_, rfl⟩
            rcases h.2.2.2 with h | h
            · rw [hf] at h
              exact absurd h (Nat.not_lt.mpr (Nat.le_add_left 2 rest.length))
            · exact h hin
  · refine .inl ⟨fun h => hknown ⟨h.1, h.2.1⟩, ?_⟩
    have hanswered : answered signed long (some buffer) =
        .bad_command (promote signed (buffer.headD 0)) := by
      cases signed with
      | true => rfl
      | false =>
          rw [answered, if_neg Bool.false_ne_true, asked,
            if_neg fun h => hknown ⟨h, rfl⟩]
    rw [dispatch, hanswered]
    simp only [if_neg fun h => hknown (promote_convert.mp h)]
    rfl

end Dispatch

/-! ## One turn -/

/-- `fd` is a new socket. -/
structure Connected (k : Kernel) (fd : Int) (k' : Kernel) : Prop where
  fresh : fd = k.freeFd k.answer.hint
  names : k'.files.names = k.files.names
  data : k'.files.data = k.files.data
  host : k'.host = k.host
  tick : k'.tick = k.tick + 1
  fds : k'.fds = (fd, k.nextDesc) :: k.fds
  nextDesc : k'.nextDesc = k.nextDesc + 1
  below : ∀ id, id < k.nextDesc → k'.desc id = k.desc id
  acc : (k'.desc k.nextDesc).flags.acc = .rdwr
  regular : (k'.desc k.nextDesc).regular = false

theorem sysSocket_connected {k : Kernel} (h : k.answer.fails = false) :
    ∃ fd k', sysSocket k = (fd, k') ∧ Connected k fd k' := by
  let opened := ((k.tock 1).setFiles (reserve k.files) (reserve_le k.files)).install
    k.answer.hint k.files.next { acc := .rdwr } (reserve_lt k.files)
  have hself : (irregular opened.2 k.nextDesc).desc k.nextDesc =
      { opened.2.desc k.nextDesc with regular := false } := Function.update_self ..
  have hopened : opened.2.desc k.nextDesc =
      { inode := k.files.next, pos := 0, flags := { acc := .rdwr } } := Kernel.install_desc_self
  refine ⟨opened.1, irregular opened.2 k.nextDesc, ?_, rfl, rfl, rfl, rfl, rfl, rfl, rfl,
    fun id hid => ?_, ?_, ?_⟩
  · rw [sysSocket, h]
    rfl
  · exact (Function.update_of_ne (Nat.ne_of_lt hid) ..).trans (Kernel.install_desc_lt hid)
  · rw [hself, hopened]
  · rw [hself]

namespace Connected

variable {k k' : Kernel} {fd : Int} (h : Connected k fd k')
include h

theorem nonneg : ¬ fd < 0 := by
  have := k.freeFd_nonneg k.answer.hint
  rw [← h.fresh] at this
  omega

theorem find : k'.find fd = some k.nextDesc := by
  rw [Kernel.find, h.fds]
  exact List.lookup_cons_self

/-- What is read from it. -/
theorem read : (k'.tock 1).sysRead fd command_package_size =
    if (k.host.answer (k.tick + 2)).fails = true then ((-1, []), k'.tock 2)
    else ((((arrived (k.host.answer (k.tick + 2))).length : Int),
      arrived (k.host.answer (k.tick + 2))), k'.tock 2) := by
  have hanswer : (k'.tock 1).answer = k.host.answer (k.tick + 2) := by
    show k'.host.answer (k'.tick + 1) = _
    rw [h.host, h.tick]
  have hfind : (k'.tock 1).find fd = some k.nextDesc := h.find
  simp only [Kernel.sysRead, hfind, hanswer, Kernel.tock_desc, h.acc, h.regular, arrived,
    Kernel.tock_tock]
  cases (k.host.answer (k.tick + 2)).fails with
  | true => rfl
  | false => rfl

/-- It is closed, and only the numbers of descriptions that were used are left. -/
theorem closed (n : Nat) : ∃ r, (k'.tock n).sysClose fd = (r, (k'.tock (n + 1)).dropFd fd) ∧
    ((k'.tock (n + 1)).dropFd fd).fds = k.fds := by
  have hfind : (k'.tock n).find fd = some k.nextDesc := h.find
  refine ⟨((k'.tock n).sysClose fd).1, ?_, ?_⟩
  · simp only [Kernel.sysClose, hfind, Kernel.tock_tock]
  · show k'.fds.filter (fun e => e.1 ≠ fd) = k.fds
    rw [h.fds, h.fresh]
    exact k.filter_bound _ _

end Connected

section Turns

variable {signed : Bool} {long : Nat} {stale : List UInt8} {w w' : World}

/-- A call that fails leaves the process waiting. -/
theorem Idle.tock {phase : Phase} (h : Idle w phase w') (n : Nat) :
    Idle w phase { w' with kern := w'.kern.tock n } :=
  ⟨h.table, h.names, h.data, h.host, h.holding, h.nextDesc, h.desc⟩

/-- So does a connection that was made and closed. -/
theorem Idle.connected {phase : Phase} {fd : Int} {k : Kernel} (h : Idle w phase w')
    (hc : Connected w'.kern fd k) {phase' : Phase} {k' : Kernel}
    (hk : k'.files = k.files ∧ k'.host = k.host ∧ k'.nextDesc = k.nextDesc ∧ k'.desc = k.desc)
    (hfds : phase'.Holding w.kern.fds k'.fds) :
    Idle w phase' { w' with kern := k' } := by
  obtain ⟨hfiles, hhost, hnext, hdesc⟩ := hk
  refine ⟨h.table, ?_, ?_, hhost.trans (hc.host.trans h.host), hfds, ?_, fun id hid => ?_⟩
  · rw [hfiles]
    exact hc.names.trans h.names
  · rw [hfiles]
    exact hc.data.trans h.data
  · have := h.nextDesc
    rw [hnext, hc.nextDesc]
    omega
  · rw [hdesc, hc.below id (Nat.lt_of_lt_of_le hid h.nextDesc)]
    exact h.desc id hid

/-- **A request on a new connection**: it is answered and the connection closed, or it is
    deadly. -/
theorem handle_connected {fd : Int} {k : Kernel} (hc : Connected w.kern fd k) :
    let b := request stale (w.kern.host.answer (w.kern.tick + 2))
    (¬ Deadly signed b ∧ handle_request signed long stale fd { w with kern := k.tock 1 } =
      .ok (answered signed long b, { w with kern := (k.tock 3).dropFd fd })) ∨
    (Deadly signed b ∧
      handle_request signed long stale fd { w with kern := k.tock 1 } = .error .undefined) := by
  intro b
  let a := w.kern.host.answer (w.kern.tick + 2)
  have hread := hc.read
  obtain ⟨r, hclose, -⟩ := hc.closed 2
  have hlast : linker_close fd { w with kern := k.tock 2 } =
      .ok (r, { w with kern := (k.tock 3).dropFd fd }) := linker_close_ok hclose
  by_cases hnone : arrived a = []
  · -- the read fails, or delivers nothing
    have hb : b = none := if_pos hnone
    obtain ⟨m, hm, hread⟩ : ∃ m : Int × List UInt8, ¬ m.1 > 0 ∧
        (k.tock 1).sysRead fd command_package_size = (m, k.tock 2) := by
      rw [hread]
      split
      · exact ⟨_, by decide, rfl⟩
      · refine ⟨_, ?_, rfl⟩
        show ¬ ((arrived a).length : Int) > 0
        rw [hnone]
        decide
    refine .inl ⟨by rw [hb]; exact id, ?_⟩
    rw [hb, handle_request, bind_ok (linker_read_ok hread), if_neg hm, bind_ok hlast]
    rfl
  · have hgood : ¬ a.fails = true := fun h => hnone (if_pos h)
    have hb : b = some (memcpy stale 0 (arrived a)) := if_neg hnone
    rw [if_neg hgood] at hread
    rw [hb, handle_request_run hnone hread]
    rcases @dispatch_cases signed long (memcpy stale 0 (arrived a)) { w with kern := k.tock 2 }
      with ⟨halive, hrun⟩ | ⟨hdeadly, hrun⟩
    · refine .inl ⟨halive, ?_⟩
      rw [bind_ok hrun, bind_ok hlast]
      rfl
    · exact .inr ⟨hdeadly, bind_error hrun⟩

/-- **One turn** reads the first of the requests that are received, or none, and goes on with
    the others. -/
theorem turn_runs {phase : Phase} (hi : Idle w phase w') : ∃ requests phase' t,
    (∀ stales, received w.kern.host (stale :: stales) phase.isServing w'.kern.tick =
      requests ++ received w.kern.host stales phase'.isServing t) ∧
    (((∀ b ∈ requests, ¬ Deadly signed b) ∧ ∃ w'', turn signed long stale phase w' =
        .ok ((phase', requests.map (answered signed long)), w'') ∧
        Idle w phase' w'' ∧ w''.kern.tick = t) ∨
      ((∃ b ∈ requests, Deadly signed b) ∧
        turn signed long stale phase w' = .error .undefined)) := by
  have hanswer : w'.kern.answer = w.kern.host.answer w'.kern.tick := by
    rw [Kernel.answer, hi.host]
  by_cases hfails : w'.kern.answer.fails = true
  · -- no socket, or no connection
    refine ⟨[], phase, w'.kern.tick + 1, fun stales => ?_, .inl ⟨by simp, _, ?_, hi.tock 1, rfl⟩⟩
    · rw [received, ← hanswer, if_pos hfails]
      rfl
    · have hsocket : sysSocket w'.kern = (-1, w'.kern.tock 1) := by
        rw [sysSocket, if_pos hfails]
      cases phase with
      | making =>
          rw [turn, bind_ok (show socket_local_server w' = _ from kernelCall_ok hsocket),
            if_pos (by decide)]
          rfl
      | serving s =>
          have haccept : sysAccept w'.kern s = (-1, w'.kern.tock 1) := by
            rw [sysAccept, hsocket, ite_self]
          rw [turn, bind_ok (show accept s w' = _ from kernelCall_ok haccept),
            if_pos (by decide)]
          rfl
  · have hgood : w'.kern.answer.fails = false := by simpa using hfails
    obtain ⟨fd, k, hsocket, hc⟩ := sysSocket_connected hgood
    have hsetfd : fcntl_setfd fd { w' with kern := k } = .ok ((), { w' with kern := k.tock 1 }) :=
      kernelCall_ok rfl
    cases phase with
    | making =>
        refine ⟨[], .serving fd, w'.kern.tick + 2, fun stales => ?_,
          .inl ⟨by simp, { w' with kern := k.tock 1 }, ?_,
            hi.connected hc ⟨rfl, rfl, rfl, rfl⟩ ⟨w'.kern.nextDesc, ?_⟩, ?_⟩⟩
        · rw [received, ← hanswer, if_neg hfails]
          rfl
        · rw [turn, bind_ok (show socket_local_server w' = _ from kernelCall_ok hsocket),
            if_neg hc.nonneg, bind_ok hsetfd]
          rfl
        · show k.fds = _
          rw [hc.fds, show w'.kern.fds = w.kern.fds from hi.holding]
        · show k.tick + 1 = _
          rw [hc.tick]
    | serving s =>
        obtain ⟨id, hfds⟩ := hi.holding
        have haccept : sysAccept w'.kern s = (fd, k) := by
          have huse : w'.kern.InUse s := by
            rw [Kernel.InUse, hfds]
            exact List.mem_cons_self ..
          rw [sysAccept, if_pos huse, hsocket]
        obtain ⟨r, -, hleft⟩ := hc.closed 2
        refine ⟨[request stale (w'.kern.host.answer (w'.kern.tick + 2))], .serving s,
          w'.kern.tick + 4, fun stales => ?_, ?_⟩
        · rw [received, ← hanswer, if_neg hfails, hi.host]
          rfl
        rw [turn, bind_ok (show accept s w' = _ from kernelCall_ok haccept), if_neg hc.nonneg,
          bind_ok hsetfd]
        have hi' : Idle w (.serving s) { w' with kern := (k.tock 3).dropFd fd } :=
          hi.connected hc ⟨rfl, rfl, rfl, rfl⟩ ⟨id, hleft.trans hfds⟩
        rcases @handle_connected signed long stale w' fd k hc with ⟨halive, hrun⟩ | ⟨hdeadly, hrun⟩
        · refine .inl ⟨fun b hb => ?_, _, ?_, hi', ?_⟩
          · rw [List.mem_singleton.mp hb]
            exact halive
          · rw [bind_ok hrun]
            rfl
          · show k.tick + 3 = _
            rw [hc.tick]
        · exact .inr ⟨⟨_, List.mem_singleton.mpr rfl, hdeadly⟩, bind_error hrun⟩

end Turns

/-! ## Every run -/

/-- A process that has just started waits, in this sense, for its socket. -/
theorem idle_start (w : World) : Idle w .making w :=
  ⟨rfl, rfl, rfl, rfl, rfl, Nat.le_refl _, fun _ _ => rfl⟩

theorem parent_from {signed : Bool} {long : Nat} {w : World} : ∀ (stales : List (List UInt8))
    {phase : Phase} {w' : World}, Idle w phase w' →
    let requests := received w.kern.host stales phase.isServing w'.kern.tick
    ((∀ b ∈ requests, ¬ Deadly signed b) ∧ ∃ phase' w'', parent signed long stales phase w' =
        .ok ((phase', requests.map (answered signed long)), w'') ∧ Idle w phase' w'') ∨
      ((∃ b ∈ requests, Deadly signed b) ∧
        parent signed long stales phase w' = .error .undefined) := by
  intro stales
  induction stales with
  | nil =>
      intro phase w' hi
      exact .inl ⟨fun b hb => absurd hb List.not_mem_nil, phase, w', rfl, hi⟩
  | cons stale stales ih =>
      intro phase w' hi requests
      obtain ⟨first, phase', t, hreceived, hturn⟩ := @turn_runs signed long stale w w' phase hi
      have hsplit : requests = first ++ received w.kern.host stales phase'.isServing t :=
        hreceived stales
      rw [hsplit, parent]
      rcases hturn with ⟨halive, w'', hrun, hi', htick⟩ | ⟨⟨b, hb, hdeadly⟩, hrun⟩
      · subst htick
        rw [bind_ok hrun]
        rcases ih hi' with ⟨hrest, phase'', w₂, hruns, hi''⟩ | ⟨⟨b, hb, hdeadly⟩, hruns⟩
        · refine .inl ⟨fun b hb => ?_, phase'', w₂, ?_, hi''⟩
          · rcases List.mem_append.mp hb with hb | hb
            · exact halive b hb
            · exact hrest b hb
          · rw [bind_ok hruns, List.map_append]
            rfl
        · exact .inr ⟨⟨b, List.mem_append_right _ hb, hdeadly⟩, bind_error hruns⟩
      · exact .inr ⟨⟨b, List.mem_append_left _ hb, hdeadly⟩, bind_error hrun⟩

/-- **The loop.**  Whatever fails and whatever arrives, and whatever the buffers hold before: if
    no request that is received is deadly, every one of them is answered by itself and the
    process is left waiting, with no file, table entry or descriptor touched and no connection
    left open; otherwise it ends. -/
theorem parent_runs (signed : Bool) (long : Nat) (stales : List (List UInt8)) (w : World) :
    let requests := received w.kern.host stales false w.kern.tick
    ((∀ b ∈ requests, ¬ Deadly signed b) ∧ ∃ phase w', parent signed long stales .making w =
        .ok ((phase, requests.map (answered signed long)), w') ∧ Idle w phase w') ∨
      ((∃ b ∈ requests, Deadly signed b) ∧
        parent signed long stales .making w = .error .undefined) :=
  parent_from stales (idle_start w)

/-- The command with one number is not survived. -/
example : Deadly false (some oneNumber) := ⟨rfl, rfl, by decide, .inl (by decide)⟩

end TeServer
