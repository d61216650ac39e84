import TransEncrypt.ProgramProofs
import TransEncrypt.NumeralProofs

/-! # Requests to the daemon — `handle_request`

    A request is a command byte and a text of at most 256 bytes.  The one command there is
    takes two numbers out of the text with two calls of `strtok`; the constant it is compared
    with is above the range of a signed `char`.

    * `dispatch_convert`: the command on a text, by its fields;
    * `handle_request_run`: a request is read, dispatched and its connection closed, unless
      the dispatch runs into a null token;
    * `survives_iff`: the requests that the daemon survives as it should. -/

namespace TeDaemon

open Posix Overlay TeHeader Hoare TeProgram CString Numeral

/-! ## The code -/

/-- What becomes of a request: an error is logged (`no_data`, `bad_command`), or the path of
    a descriptor is put together; `no_request` stands for a read that delivers nothing. -/
inductive Outcome where
  | no_request
  | no_data
  | bad_command (command : Int)
  | converted (path : Path)
  deriving DecidableEq, Repr

/-- The size of `struct command_package`: the command, and 256 bytes of text. -/
def command_package_size : Nat := 257

def CONVERT_FILE_DESCRIPTOR_TO_FILE_PATH : Int := 0x81

/-- A `char` as an `int`, for a compiler whose `char` is signed or not. -/
def promote (signed : Bool) (c : UInt8) : Int :=
  if signed = true ∧ 0x80 ≤ c.toNat then (c.toNat : Int) - 256 else c.toNat

/-- `convert_file_descriptor_to_file_path`: the path it prints; it returns a null pointer. -/
def convert_file_descriptor_to_file_path (pid fd : Int) : Path :=
  text "/proc/" ++ printInt pid ++ text "/fd/" ++ printInt fd

/-- The fields of a piece of memory that have a comma behind them. -/
def ended (mem : List UInt8) : List (List UInt8) :=
  (mem.splitOnP (· ∈ text ",")).dropLast.filter (· ≠ [])

/-- The search for two fields stays in the memory: there is a NUL, or the comma behind the
    second one. -/
def Bounded (mem : List UInt8) : Prop := 0 ∈ mem ∨ 2 ≤ (ended mem).length

instance (mem : List UInt8) : Decidable (Bounded mem) := inferInstanceAs (Decidable (_ ∨ _))

/-- The body of `handle_request`, on a buffer that holds a command and a text. -/
def dispatch (signed : Bool) (long : Nat) (buffer : List UInt8) : Sys Outcome :=
  let command := promote signed (buffer.headD 0)
  let package := buffer.drop 1
  if command = CONVERT_FILE_DESCRIPTOR_TO_FILE_PATH then
    if package.head? = some 0 then pure .no_data
    else if ¬ Bounded package then undefinedBehaviour     -- `strtok` leaves the buffer
    else
      let first := strtok (text ",") (some (cstr package))
      match first.1, (strtok (text ",") first.2).1 with
      | some s_fd, some s_pid =>
        pure (.converted (convert_file_descriptor_to_file_path (atoi long s_pid) (atoi long s_fd)))
      | _, _ => undefinedBehaviour
  else pure (.bad_command command)

/-- `handle_request`.  The buffer is not initialised: `stale` is what it holds before. -/
def handle_request (signed : Bool) (long : Nat) (stale : List UInt8) (fd : Int) : Sys Outcome := do
  let r ← linker_read fd command_package_size
  if r.1 > 0 then do
    let outcome ← dispatch signed long (memcpy stale 0 r.2)
    let _ ← linker_close fd
    pure outcome
  else do
    let _ ← linker_close fd
    pure .no_request

/-! ## What a request asks for -/

section Requests

variable {signed : Bool} {long : Nat} {buffer : List UInt8} {w : World}

/-- The fields of the text: what stands between commas, empty fields left out. -/
def fields (buffer : List UInt8) : List (List UInt8) := tokens (text ",") (cstr (buffer.drop 1))

/-- What a request asks for, the command byte being 0x81 whatever a `char` is: a text without
    two fields is rejected like the empty one. -/
def asked (signed : Bool) (long : Nat) (buffer : List UInt8) : Outcome :=
  if buffer.headD 0 = 0x81 then
    match fields buffer with
    | s_fd :: s_pid :: _ =>
      .converted (convert_file_descriptor_to_file_path (atoi long s_pid) (atoi long s_fd))
    | _ => .no_data
  else .bad_command (promote signed (buffer.headD 0))

/-- **The command byte**: it selects the command only where a `char` is unsigned. -/
theorem promote_convert {c : UInt8} :
    promote signed c = CONVERT_FILE_DESCRIPTOR_TO_FILE_PATH ↔ c = 0x81 ∧ signed = false := by
  have hc := c.toNat_lt
  rw [← UInt8.toNat_inj, promote, CONVERT_FILE_DESCRIPTOR_TO_FILE_PATH]
  simp only [UInt8.reduceToNat]
  cases signed with
  | false =>
      rw [if_neg (fun h => Bool.false_ne_true h.1)]
      constructor
      · intro h
        exact ⟨by omega, rfl⟩
      · rintro ⟨h, -⟩
        omega
  | true =>
      refine iff_of_false (fun heq => ?_) (fun h => by cases h.2)
      by_cases h : 0x80 ≤ c.toNat
      · rw [if_pos ⟨rfl, h⟩] at heq
        omega
      · rw [if_neg (fun h' => h h'.2)] at heq
        omega

/-- An empty text has no fields. -/
theorem fields_empty (h : (buffer.drop 1).head? = some 0) : fields buffer = [] := by
  rw [fields]
  cases hp : buffer.drop 1 with
  | nil => rfl
  | cons c rest =>
      rw [hp] at h
      rw [Option.some.inj h]
      rfl

/-- **The command** on a text that is not empty takes its first two fields, or runs into a null
    token. -/
theorem dispatch_convert (hcommand : buffer.headD 0 = 0x81) (hsigned : signed = false)
    (hin : Bounded (buffer.drop 1)) (hne : (buffer.drop 1).head? ≠ some 0) :
    dispatch signed long buffer w =
      match fields buffer with
      | s_fd :: s_pid :: _ =>
        .ok (.converted
          (convert_file_descriptor_to_file_path (atoi long s_pid) (atoi long s_fd)), w)
      | _ => .error .undefined := by
  rw [dispatch]
  simp only [if_pos (promote_convert.mpr ⟨hcommand, hsigned⟩), if_neg hne,
    if_neg (not_not_intro hin),
    strtok_first, strtok_second]
  rw [fields]
  cases tokens (text ",") (cstr (buffer.drop 1)) with
  | nil => rfl
  | cons s_fd rest =>
      cases rest with
      | nil => rfl
      | cons s_pid rest => rfl

/-- The requests that are handled as they ask for. -/
def Understood (signed : Bool) (buffer : List UInt8) : Prop :=
  buffer.headD 0 = 0x81 →
    signed = false ∧ ((buffer.drop 1).head? = some 0 ∨ 2 ≤ (fields buffer).length)

/-- A dispatch changes nothing. -/
theorem dispatch_stays : Stays Eq (dispatch signed long buffer) := by
  rw [dispatch]
  refine .ite (.ite (.pure _) (.ite (.stop _) ?_)) (.pure _)
  dsimp only
  split
  · exact .pure _
  · exact .stop _

/-- The command byte is not asked to be a bad command. -/
theorem asked_convert (hcommand : buffer.headD 0 = 0x81) (command : Int) :
    asked signed long buffer ≠ .bad_command command := by
  rw [asked, if_pos hcommand]
  cases fields buffer with
  | nil => exact Outcome.noConfusion
  | cons s_fd rest =>
      cases rest with
      | nil => exact Outcome.noConfusion
      | cons s_pid rest => exact Outcome.noConfusion

theorem dispatch_asked (hnul : 0 ∈ buffer.drop 1) :
    dispatch signed long buffer w = .ok (asked signed long buffer, w) ↔
      Understood signed buffer := by
  by_cases hcommand : buffer.headD 0 = 0x81
  · by_cases hsigned : signed = false
    · rw [Understood, asked, if_pos hcommand]
      by_cases hempty : (buffer.drop 1).head? = some 0
      · rw [fields_empty hempty, dispatch]
        simp only [if_pos (promote_convert.mpr ⟨hcommand, hsigned⟩), if_pos hempty]
        exact iff_of_true rfl fun _ => ⟨hsigned, .inl hempty⟩
      · rw [dispatch_convert hcommand hsigned (.inl hnul) hempty]
        cases hf : fields buffer with
        | nil =>
            refine iff_of_false (fun h => by cases h) fun h => ?_
            rcases (h hcommand).2 with h | h
            · exact hempty h
            · exact absurd h (by decide)
        | cons s_fd rest =>
            cases rest with
            | nil =>
                refine iff_of_false (fun h => by cases h) fun h => ?_
                rcases (h hcommand).2 with h | h
                · exact hempty h
                · exact absurd h (Nat.not_succ_le_self 1)
            | cons s_pid rest =>
                exact iff_of_true rfl fun _ => ⟨hsigned, .inr (Nat.le_add_left 2 _)⟩
    · refine iff_of_false (fun h => ?_) fun h => hsigned (h hcommand).1
      rw [dispatch] at h
      simp only [if_neg (fun h' => hsigned (promote_convert.mp h').2)] at h
      exact asked_convert hcommand _ (pure_inv h).1
  · refine iff_of_true ?_ fun h => absurd h hcommand
    rw [dispatch, asked, if_neg hcommand]
    simp only [if_neg (fun h' => hcommand (promote_convert.mp h').1)]
    rfl

end Requests

/-! ## Whole requests -/

section Run

variable {signed : Bool} {long : Nat} {stale bytes : List UInt8} {fd : Int} {w : World}
  {k₁ : Kernel}

/-- A request that was dispatched: the connection is closed. -/
theorem handle_request_run (hne : bytes ≠ [])
    (hread : w.kern.sysRead fd command_package_size = (((bytes.length : Int), bytes), k₁)) :
    handle_request signed long stale fd w =
      (dispatch signed long (memcpy stale 0 bytes) >>= fun outcome => do
        let _ ← linker_close fd
        pure outcome) { w with kern := k₁ } := by
  rw [handle_request, bind_ok (linker_read_ok hread),
    if_pos (Int.natCast_pos.mpr (List.length_pos_iff.mpr hne))]

/-- The daemon survives a request: the call returns what the request asks for, and the
    connection is closed. -/
def Survives (signed : Bool) (long : Nat) (stale bytes : List UInt8) (fd : Int) (w : World) :
    Prop :=
  ∃ w', handle_request signed long stale fd w =
    .ok (asked signed long (memcpy stale 0 bytes), w') ∧ ¬ w'.kern.InUse fd

/-- **Which requests the daemon survives**: for all bytes received, whatever the buffer held
    before, with a NUL in the text. -/
theorem survives_iff (signed : Bool) (long : Nat) (stale bytes : List UInt8) (fd : Int) (w : World)
    (k₁ : Kernel) (hne : bytes ≠ [])
    (hread : w.kern.sysRead fd command_package_size = (((bytes.length : Int), bytes), k₁))
    (hnul : 0 ∈ (memcpy stale 0 bytes).drop 1) :
    Survives signed long stale bytes fd w ↔ Understood signed (memcpy stale 0 bytes) := by
  rw [Survives, handle_request_run hne hread, ← dispatch_asked hnul]
  constructor
  · rintro ⟨w', hrun, -⟩
    obtain ⟨outcome, w₂, hdispatch, hrest⟩ := bind_inv hrun
    obtain ⟨r, w₃, -, hpure⟩ := bind_inv hrest
    obtain ⟨rfl, -⟩ := pure_inv hpure
    rw [hdispatch, ← dispatch_stays hdispatch]
  · intro h
    refine ⟨_, (bind_ok h).trans (bind_ok (linker_close_ok rfl)), ?_⟩
    exact Kernel.sysClose_released _ fd

end Run

/-! ## Some requests -/

/-- A process with a connection on descriptor 0, on which `bytes` arrive. -/
def connection (bytes : List UInt8) : World :=
  ⟨{ Kernel.oneDescriptor [] { acc := .rdonly } 0 with
      host := { answer := fun _ => { arrives := bytes } } }, []⟩

theorem connection_read {bytes : List UInt8} (h : bytes.length ≤ command_package_size) :
    (connection bytes).kern.sysRead 0 command_package_size =
      (((bytes.length : Int), bytes), (connection bytes).kern.tock 1) := by
  show ((((bytes.take command_package_size).length : Int), bytes.take command_package_size), _) = _
  rw [List.take_of_length_le h]

/-- The command with two numbers. -/
def twoNumbers : List UInt8 := 0x81 :: (text "5,7" ++ [0])

/-- The command with one number. -/
def oneNumber : List UInt8 := 0x81 :: (text "5" ++ [0])

theorem survives_two_numbers :
    Survives false 32 (zeroed 257) twoNumbers 0 (connection twoNumbers) := by
  have hbuf : memcpy (zeroed 257) 0 twoNumbers = twoNumbers ++ zeroed 252 :=
    memcpy_zeroed (by decide)
  refine (survives_iff false 32 (zeroed 257) twoNumbers 0 (connection twoNumbers) _ (by decide)
    (connection_read (by decide)) (by rw [hbuf]; decide)).mpr fun _ => ⟨rfl, .inr ?_⟩
  rw [hbuf]
  decide

/-- Where a `char` is signed the command is not known; where it is not, a text with one number
    leads to a null token. -/
theorem survives_fails :
    (∃ w', handle_request true 32 (zeroed 257) 0 (connection twoNumbers) =
      .ok (.bad_command (-127), w')) ∧
    asked true 32 twoNumbers = .converted (text "/proc/7/fd/5") ∧
    handle_request false 32 (zeroed 257) 0 (connection oneNumber) = .error .undefined := by
  have hbuf : memcpy (zeroed 257) 0 oneNumber = oneNumber ++ zeroed 254 :=
    memcpy_zeroed (by decide)
  have hfields : fields (oneNumber ++ zeroed 254) = [text "5"] := by decide
  refine ⟨⟨⟨(((connection twoNumbers).kern.tock 1).sysClose 0).2, []⟩, ?_⟩, by decide, ?_⟩
  · rw [handle_request_run (by decide) (connection_read (by decide)), memcpy_zeroed (by decide)]
    have hdispatch : ∀ w, dispatch true 32 (twoNumbers ++ zeroed (257 - twoNumbers.length)) w =
        .ok (.bad_command (-127), w) := fun _ => rfl
    exact (bind_ok (hdispatch _)).trans (bind_ok (linker_close_ok rfl))
  · rw [handle_request_run (by decide) (connection_read (by decide)), hbuf]
    refine bind_error ?_
    rw [dispatch_convert rfl rfl (.inl (by decide)) (by decide), hfields]

end TeDaemon
