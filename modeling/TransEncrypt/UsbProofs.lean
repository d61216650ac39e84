import TransEncrypt.ProgramProofs
import TransEncrypt.TrimProofs

/-! # Is a computer connected — `usb_connector_state`

    The state of the USB connector is a word in a file.  It is read into a zeroed buffer,
    compacted with `trim`, and compared with two keywords over its own length, so that it
    need only begin one of them.

    * `connected_eq`: the comparison accepts the prefixes of the keywords;
    * `usb_connector_state_run`: the result for the bytes that were read;
    * `usb_state_iff`: when the result is the one for the word in the file. -/

namespace TeUsb

open Posix Overlay TeHeader Hoare TeProgram CString TeTrim

/-! ## The code -/

def USB_STATE_PATH : Path := text "/sys/class/android_usb/android0/state"

def USB_STATE_BUFFER_SIZE : Nat := 32

def USB_RESULT_CONNECTED : Int := 1001

def USB_RESULT_DISCONNECTED : Int := 1002

/-- The comparison of the buffer with the keywords, behind `trim`; none when a call goes
    outside the buffer or a keyword. -/
def connected (buffer : List UInt8) : Option Bool := do
  let buffer ← trim buffer
  let n ← strlen buffer
  let first ← memcmp buffer (text "CONNECTED" ++ [0]) n
  if first = .eq then pure true
  else do
    let second ← memcmp buffer (text "CONFIGURED" ++ [0]) n
    pure (second = .eq)

/-- `usb_connector_state`.  The library it belongs to makes the real calls. -/
def usb_connector_state : Sys Int := do
  if (← access USB_STATE_PATH) ≠ 0 then pure USB_RESULT_DISCONNECTED
  else do
    let fd ← linker_open USB_STATE_PATH { acc := .rdonly }
    if fd > 0 then do
      let r ← linker_read fd USB_STATE_BUFFER_SIZE
      if r.1 > 0 then
        match connected (memcpy (zeroed USB_STATE_BUFFER_SIZE) 0 r.2) with
        | none => undefinedBehaviour
        | some result => do
          let _ ← linker_close fd
          pure (if result then USB_RESULT_CONNECTED else USB_RESULT_DISCONNECTED)
      else do
        let _ ← linker_close fd
        pure USB_RESULT_DISCONNECTED
    else pure USB_RESULT_DISCONNECTED

/-! ## The word in the file -/

/-- The word: the bytes up to the first NUL, without white space. -/
def word (content : List UInt8) : List UInt8 := keep (cstr content)

/-- The word says that a computer is connected. -/
def Connected (content : List UInt8) : Prop :=
  word content = text "CONNECTED" ∨ word content = text "CONFIGURED"

/-- The word begins one of the keywords. -/
def Begins (content : List UInt8) : Prop :=
  word content <+: text "CONNECTED" ∨ word content <+: text "CONFIGURED"

instance (content : List UInt8) : Decidable (Connected content) :=
  inferInstanceAs (Decidable (_ ∨ _))
instance (content : List UInt8) : Decidable (Begins content) :=
  inferInstanceAs (Decidable (_ ∨ _))

theorem begins_of_connected {content : List UInt8} (h : Connected content) : Begins content := by
  rcases h with h | h
  · exact .inl (h ▸ List.prefix_rfl)
  · exact .inr (h ▸ List.prefix_rfl)

section Run

variable {w : World} {got : List UInt8}

/-- **The comparison** is by the length of the word, and never goes outside a keyword. -/
theorem connected_eq (h : got.length < USB_STATE_BUFFER_SIZE) :
    connected (memcpy (zeroed USB_STATE_BUFFER_SIZE) 0 got) = some (decide (Begins got)) := by
  have hbuf : memcpy (zeroed USB_STATE_BUFFER_SIZE) 0 got =
      got ++ List.replicate (USB_STATE_BUFFER_SIZE - got.length) 0 :=
    memcpy_zeroed (Nat.le_of_lt h)
  have hnul : 0 ∈ got ++ List.replicate (USB_STATE_BUFFER_SIZE - got.length) 0 :=
    List.mem_append_right _ (List.mem_replicate.mpr ⟨by omega, rfl⟩)
  obtain ⟨rest, htrim⟩ := trim_cstr hnul
  rw [cstr_zeros] at htrim
  have hword : 0 ∉ word got := nul_not_mem_keep (nul_not_mem_cstr got)
  obtain ⟨o₁, h₁, hiff₁⟩ := memcmp_terminated (t := text "CONNECTED") hword rest
  obtain ⟨o₂, h₂, hiff₂⟩ := memcmp_terminated (t := text "CONFIGURED") hword rest
  rw [connected, hbuf, htrim]
  show (do
    let n ← strlen (word got ++ 0 :: rest)
    let first ← memcmp (word got ++ 0 :: rest) (text "CONNECTED" ++ [0]) n
    if first = .eq then pure true
    else do
      let second ← memcmp (word got ++ 0 :: rest) (text "CONFIGURED" ++ [0]) n
      pure (decide (second = .eq)) : Option Bool) = _
  rw [strlen_terminated hword]
  simp only [Option.bind_eq_bind, Option.bind_some, h₁, h₂]
  by_cases hb : word got <+: text "CONNECTED"
  · rw [if_pos (hiff₁.mpr hb), decide_eq_true (p := Begins got) (.inl hb)]
    rfl
  · rw [if_neg (fun heq => hb (hiff₁.mp heq))]
    have : (o₂ = .eq) ↔ Begins got := hiff₂.trans (by rw [Begins, or_iff_right hb])
    rw [decide_eq_decide.mpr this]
    rfl

/-- The bytes that are read: none when the file is refused. -/
def seen (w : World) : List UInt8 :=
  (w.kern.asked USB_STATE_PATH USB_STATE_BUFFER_SIZE).getD []

theorem seen_whole {content : List UInt8} (hc : w.kern.host.Calm) (h0 : w.kern.InUse 0)
    (hp : w.kern.files.content USB_STATE_PATH = some content)
    (hshort : content.length < USB_STATE_BUFFER_SIZE) : seen w = content := by
  rw [seen, Kernel.asked_whole hc h0 hp (Nat.le_of_lt hshort)]
  rfl

/-- **The function** never meets an access outside a buffer; the result goes by what was read. -/
theorem usb_connector_state_run {content : List UInt8}
    (hp : w.kern.files.content USB_STATE_PATH = some content)
    (hshort : content.length < USB_STATE_BUFFER_SIZE) :
    ∃ w', usb_connector_state w =
      .ok (if seen w ≠ [] ∧ Begins (seen w)
        then USB_RESULT_CONNECTED else USB_RESULT_DISCONNECTED, w') := by
  obtain ⟨i, hi, rfl⟩ := (w.kern.files.content_eq_some).mp hp
  have hgot := Nat.lt_of_le_of_lt
    (Kernel.fetch_prefix hi USB_STATE_BUFFER_SIZE).length_le hshort
  rw [usb_connector_state, seen, Kernel.asked, bind_ok (access_ok rfl)]
  by_cases haccess : w.kern.sysAccess USB_STATE_PATH = 0
  case neg =>
    rw [if_pos haccess, if_neg haccess, if_neg (fun h => h.1 rfl)]
    exact ⟨w, rfl⟩
  rw [if_neg (not_not.mpr haccess), if_pos haccess, Option.getD_some]
  rw [Kernel.fetch] at hgot ⊢
  cases hopen : w.kern.sysOpen USB_STATE_PATH { acc := .rdonly } with
  | mk fd k₁ =>
      rw [hopen] at hgot
      rw [bind_ok (linker_open_ok hopen)]
      by_cases hfd : fd > 0
      · simp only [if_pos hfd] at hgot ⊢
        have hcount := Kernel.sysRead_pos k₁ fd USB_STATE_BUFFER_SIZE
        cases hread : k₁.sysRead fd USB_STATE_BUFFER_SIZE with
        | mk r k₂ =>
            rw [hread] at hgot hcount
            let w₃ : World := { w with kern := (k₂.sysClose fd).2 }
            rw [bind_ok (linker_read_ok hread)]
            refine ⟨w₃, ?_⟩
            by_cases hr : r.1 > 0
            · rw [if_pos hr, connected_eq hgot]
              refine (bind_ok (linker_close_ok rfl)).trans
                (congrArg (fun c => Except.ok (c, w₃)) ?_)
              simp only [decide_eq_true_eq, hcount.mp hr, true_and, ne_eq, not_false_eq_true]
            · rw [if_neg hr]
              refine (bind_ok (linker_close_ok rfl)).trans
                (congrArg (fun c => Except.ok (c, w₃)) ?_)
              rw [if_neg (fun h => hr (hcount.mpr h.1))]
      · simp only [if_neg hfd]
        rw [if_neg (fun h => h.1 rfl)]
        exact ⟨_, rfl⟩

/-- The two results tell what they were chosen by. -/
theorem result_eq_iff {p q : Prop} [Decidable p] [Decidable q] :
    ((if p then USB_RESULT_CONNECTED else USB_RESULT_DISCONNECTED) =
      if q then USB_RESULT_CONNECTED else USB_RESULT_DISCONNECTED) ↔ (p ↔ q) := by
  have hne : USB_RESULT_CONNECTED ≠ USB_RESULT_DISCONNECTED := by decide
  by_cases hp : p
  · rw [if_pos hp]
    by_cases hq : q
    · rw [if_pos hq]
      exact iff_of_true rfl (iff_of_true hp hq)
    · rw [if_neg hq]
      exact iff_of_false hne fun h => hq (h.mp hp)
  · rw [if_neg hp]
    by_cases hq : q
    · rw [if_pos hq]
      exact iff_of_false hne.symm fun h => hp (h.mpr hq)
    · rw [if_neg hq]
      exact iff_of_true rfl (iff_of_false hp hq)

/-- The call returns, and the result is the one for the word in the file. -/
def Recognises (w : World) (content : List UInt8) : Prop :=
  ∃ w', usb_connector_state w =
    .ok (if Connected content then USB_RESULT_CONNECTED else USB_RESULT_DISCONNECTED, w')

theorem recognises_iff {content : List UInt8}
    (hp : w.kern.files.content USB_STATE_PATH = some content)
    (hshort : content.length < USB_STATE_BUFFER_SIZE) :
    Recognises w content ↔
      ((seen w ≠ [] ∧ Begins (seen w)) ↔ Connected content) := by
  obtain ⟨w', hrun⟩ := usb_connector_state_run hp hshort
  rw [Recognises, hrun]
  refine Iff.trans ⟨?_, ?_⟩ result_eq_iff
  · rintro ⟨w'', h⟩
    exact (Prod.mk.inj (Except.ok.inj h)).1
  · intro h
    exact ⟨w', by rw [h]⟩

/-- **When the word is recognised**, on every host: exactly when the bytes that were read begin
    with a keyword just if the file's word is one.  On a calm host with descriptor 0 in use
    that is when the word is not a proper prefix of a keyword. -/
theorem usb_state_iff (w : World) (content : List UInt8)
    (hp : w.kern.files.content USB_STATE_PATH = some content) (hne : content ≠ [])
    (hshort : content.length < USB_STATE_BUFFER_SIZE) :
    (Recognises w content ↔
      ((seen w ≠ [] ∧ Begins (seen w)) ↔ Connected content)) ∧
    (w.kern.host.Calm → w.kern.InUse 0 →
      (Recognises w content ↔ (Begins content → Connected content))) := by
  refine ⟨recognises_iff hp hshort, fun hc h0 => ?_⟩
  rw [recognises_iff hp hshort, seen_whole hc h0 hp hshort]
  constructor
  · intro h hb
    exact h.mp ⟨hne, hb⟩
  · intro h
    exact ⟨fun hb => h hb.2, fun hcon => ⟨hne, begins_of_connected hcon⟩⟩

end Run

/-! ## Some states -/

/-- A process with the state file and descriptor 0 in use. -/
def usbWorld (content : List UInt8) : World := ⟨Kernel.namedFile USB_STATE_PATH content, []⟩

/-- The keyword with a line end. -/
theorem usb_state_connected : Recognises (usbWorld (text "CONNECTED\n")) (text "CONNECTED\n") :=
  ((usb_state_iff (usbWorld (text "CONNECTED\n")) (text "CONNECTED\n")
    (Kernel.namedFile_content _ _) (by decide) (by decide)).2 (fun _ => ⟨rfl, rfl, rfl⟩)
    (show (0 : Int) ∈ [(0 : Int), 3] by decide)).mpr (by decide)

/-- A word that begins a keyword. -/
theorem usbWorld_begins {content : List UInt8} (hne : content ≠ [])
    (hshort : content.length < USB_STATE_BUFFER_SIZE) (hb : Begins content) :
    ∃ w', usb_connector_state (usbWorld content) = .ok (USB_RESULT_CONNECTED, w') := by
  obtain ⟨w', hrun⟩ := usb_connector_state_run (w := usbWorld content)
    (Kernel.namedFile_content _ _) hshort
  rw [seen_whole (fun _ => ⟨rfl, rfl, rfl⟩) (List.mem_cons_self ..)
    (Kernel.namedFile_content _ _) hshort, if_pos ⟨hne, hb⟩] at hrun
  exact ⟨w', hrun⟩

/-- A line end alone, and a word that is cut short, are taken for a keyword. -/
theorem usb_state_prefix :
    ¬ Connected (text "\n") ∧ ¬ Connected (text "CON\n") ∧
      (∃ w', usb_connector_state (usbWorld (text "\n")) = .ok (USB_RESULT_CONNECTED, w')) ∧
      ∃ w', usb_connector_state (usbWorld (text "CON\n")) = .ok (USB_RESULT_CONNECTED, w') :=
  ⟨by decide, by decide, usbWorld_begins (by decide) (by decide) (by decide),
    usbWorld_begins (by decide) (by decide) (by decide)⟩

end TeUsb
