import TransEncrypt.ProgramProofs
import TransEncrypt.TrimProofs
import TransEncrypt.DomainProofs

/-! # The switch in the security configuration — `get_security_state`

    One domain has its switch in a file, `encrypt:<number>`.  The buffer that the file is
    read into still holds the property that names the domain, the read sets no
    terminator, and the string is cut at colons with `strtok`, whose results are passed on
    as they are.

    * `config_state_parsed`, `config_state_null`: what the parser makes of the string in
      the buffer, and when it runs into a null token;
    * `loaded_eq`: which string that is;
    * `security_state_iff`: when the result is the one the file alone gives. -/

namespace TeSecurity

open Posix Overlay TeHeader Hoare TeProgram CString Numeral TeTrim TeDomain

/-! ## The code -/

def CONFIG_PATH : Path := text "/system/etc/security/config"

/-- The part of `get_security_state` behind the file access: `trim`, and two calls of
    `strtok`. -/
def config_state (long : Nat) (value : List UInt8) : Sys Int :=
  if value.head? = some 0 then pure 0
  else
    match trim value with
    | none => undefinedBehaviour
    | some value =>
      let first := strtok (text ":") (some (cstr value))
      match first.1 with
      | none => undefinedBehaviour
      | some token =>
        if strncmp token (text "encrypt") 7 ≠ .eq then pure 0
        else
          match (strtok (text ":") first.2).1 with
          | none => undefinedBehaviour
          | some token => pure (atoi long token)

/-- `get_security_state`, where a `long` has `long` bits. -/
def get_security_state (long : Nat) (props : Properties) (domain : Int) : Sys Int := do
  let property := (props "persist.mdm.domain_id").bytes
  if property.length = 0 then pure 0
  else if atoi long property ≠ domain then pure 0
  else do
    if (← access CONFIG_PATH) ≠ 0 then pure 0
    else do
      let value := memcpy (zeroed PROP_VALUE_MAX) 0 property
      let fd ← linker_open CONFIG_PATH { acc := .rdonly }
      if fd > 0 then do
        let r ← linker_read fd PROP_VALUE_MAX
        let _ ← linker_close fd
        config_state long (memcpy value 0 r.2)
      else config_state long value

def get_process_domain (long : Nat) (props : Properties) : Int :=
  let value := (props "persist.sys.current_user_id").bytes
  if value.length = 0 then 0 else atoi long value

def get_domain_state (long : Nat) (props : Properties) : Sys Int := do
  let domain := get_process_domain long props
  if domain = 0 then pure 0
  else
    let personal := get_personal_state props domain
    if personal ≠ 0 then pure personal
    else do
      let security ← get_security_state long props domain
      if security ≠ 0 then pure security else pure 0

/-! ## What a configuration says -/

/-- The tokens of a configuration without its white space. -/
def words (s : List UInt8) : List (List UInt8) := tokens (text ":") (keep s)

/-- What a configuration says: the number behind `encrypt`, else 0. -/
def configured (long : Nat) (s : List UInt8) : Int :=
  match words s with
  | first :: second :: _ => if text "encrypt" <+: first then atoi long second else 0
  | _ => 0

/-- The parser meets no null token: there is a first one, and a second one when it is asked
    for. -/
def Parses (s : List UInt8) : Prop :=
  s = [] ∨ ∃ first rest, words s = first :: rest ∧ (text "encrypt" <+: first → rest ≠ [])

section Parser

variable {long : Nat} {value : List UInt8} {w : World}

theorem cstr_eq_nil (h : 0 ∈ value) : cstr value = [] ↔ value.head? = some 0 := by
  obtain ⟨s, rest, hs, rfl⟩ := exists_terminated h
  rw [cstr_terminated hs]
  cases s with
  | nil => exact iff_of_true rfl rfl
  | cons c s =>
      refine iff_of_false (List.cons_ne_nil _ _) fun hc => hs ?_
      rw [← Option.some.inj hc]
      exact List.mem_cons_self ..

theorem begins_encrypt {token : List UInt8} :
    strncmp token (text "encrypt") 7 = .eq ↔ text "encrypt" <+: token := strncmp_length

/-- The parser on a string that is not empty, by its words. -/
theorem config_state_words (h : 0 ∈ value) (hne : cstr value ≠ []) :
    config_state long value w =
      match words (cstr value) with
      | [] => .error .undefined
      | first :: rest =>
        if text "encrypt" <+: first then
          match rest with
          | [] => .error .undefined
          | second :: _ => .ok (atoi long second, w)
        else .ok (0, w) := by
  obtain ⟨rest, htrim⟩ := trim_cstr h
  have hstr : cstr (keep (cstr value) ++ 0 :: rest) = keep (cstr value) :=
    cstr_terminated (nul_not_mem_keep (nul_not_mem_cstr value)) rest
  rw [config_state, if_neg (fun hz => hne ((cstr_eq_nil h).mpr hz)), htrim]
  dsimp only
  rw [hstr, strtok_first, strtok_second, words]
  cases tokens (text ":") (keep (cstr value)) with
  | nil => rfl
  | cons first rest =>
      show (if strncmp first (text "encrypt") 7 ≠ .eq then _ else _ : Sys Int) w = _
      by_cases hbegin : text "encrypt" <+: first
      · rw [if_neg (not_not.mpr (begins_encrypt.mpr hbegin))]
        dsimp only
        rw [if_pos hbegin]
        cases rest with
        | nil => rfl
        | cons second rest => rfl
      · rw [if_pos (fun heq => hbegin (begins_encrypt.mp heq))]
        dsimp only
        rw [if_neg hbegin]
        rfl

/-- A string without two tokens, or with another first one. -/
theorem configured_other {s first : List UInt8} {rest : List (List UInt8)}
    (hw : words s = first :: rest) (hbegin : ¬ text "encrypt" <+: first) :
    configured long s = 0 := by
  rw [configured, hw]
  cases rest with
  | nil => rfl
  | cons second rest => exact if_neg hbegin

theorem configured_number {s first second : List UInt8} {rest : List (List UInt8)}
    (hw : words s = first :: second :: rest) (hbegin : text "encrypt" <+: first) :
    configured long s = atoi long second := by
  rw [configured, hw]
  exact if_pos hbegin

/-- **The parser** returns what the string says. -/
theorem config_state_parsed (h : 0 ∈ value) (hp : Parses (cstr value)) :
    config_state long value w = .ok (configured long (cstr value), w) := by
  by_cases hne : cstr value = []
  · rw [config_state, if_pos ((cstr_eq_nil h).mp hne), hne]
    rfl
  · obtain ⟨first, rest, hw, hsecond⟩ := hp.resolve_left hne
    rw [config_state_words h hne, hw]
    dsimp only
    by_cases hbegin : text "encrypt" <+: first
    · rw [if_pos hbegin]
      cases rest with
      | nil => exact absurd rfl (hsecond hbegin)
      | cons second rest => rw [configured_number hw hbegin]
    · rw [if_neg hbegin, configured_other hw hbegin]

/-- Or it meets a null token. -/
theorem config_state_null (h : 0 ∈ value) (hp : ¬ Parses (cstr value)) :
    config_state long value w = .error .undefined := by
  rw [config_state_words h fun hnil => hp (.inl hnil)]
  cases hw : words (cstr value) with
  | nil => rfl
  | cons first rest =>
      have hbegin : text "encrypt" <+: first := by
        by_contra hno
        exact hp (.inr ⟨first, rest, hw, fun h => absurd h hno⟩)
      dsimp only
      rw [if_pos hbegin]
      cases rest with
      | nil => rfl
      | cons second rest =>
          exact absurd (.inr ⟨first, _, hw, fun _ => List.cons_ne_nil _ _⟩) hp

theorem config_state_ok (h : 0 ∈ value) (r : Int) (w' : World) :
    config_state long value w = .ok (r, w') ↔
      Parses (cstr value) ∧ r = configured long (cstr value) ∧ w' = w := by
  constructor
  · intro hrun
    have hp : Parses (cstr value) := by
      by_contra hno
      cases (config_state_null h hno).symm.trans hrun
    rw [config_state_parsed h hp] at hrun
    obtain ⟨rfl, rfl⟩ := Prod.mk.inj (Except.ok.inj hrun)
    exact ⟨hp, rfl, rfl⟩
  · rintro ⟨hp, rfl, rfl⟩
    exact config_state_parsed h hp

end Parser

/-! ## What is in the buffer -/

/-- The string in the buffer: the bytes that were read, what the property still has behind
    them, up to the first NUL. -/
def loaded (property got : List UInt8) : List UInt8 := cstr (got ++ property.drop got.length)

/-- **The buffer** is terminated, and the property shines through behind a short file. -/
theorem loaded_eq {property got : List UInt8} (hp : property.length < PROP_VALUE_MAX)
    (hg : got.length < PROP_VALUE_MAX) :
    0 ∈ memcpy (memcpy (zeroed PROP_VALUE_MAX) 0 property) 0 got ∧
      cstr (memcpy (memcpy (zeroed PROP_VALUE_MAX) 0 property) 0 got) = loaded property got := by
  have hbuf : memcpy (memcpy (zeroed PROP_VALUE_MAX) 0 property) 0 got =
      got ++ property.drop got.length ++
        zeroed (PROP_VALUE_MAX - property.length - (got.length - property.length)) := by
    rw [memcpy_front (by rw [memcpy_length, zeroed_length]; omega),
      memcpy_zeroed (Nat.le_of_lt hp), List.drop_append, ← List.append_assoc]
    congr 1
    exact List.drop_replicate ..
  rw [hbuf]
  refine ⟨List.mem_append_right _ (List.mem_replicate.mpr ⟨by omega, rfl⟩), ?_⟩
  rw [zeroed, cstr_zeros, loaded]

/-! ## The whole function -/

section Run

variable {long : Nat} {props : Properties} {domain : Int} {w : World} {i : Nat}

/-- The function, once the property is set and names the domain and the file is there. -/
theorem get_security_state_run (hset : (props "persist.mdm.domain_id").bytes ≠ [])
    (hnumber : atoi long (props "persist.mdm.domain_id").bytes = domain)
    (hd : w.kern.answer.denies = false) (hp : w.kern.files.names CONFIG_PATH = some i) :
    get_security_state long props domain w =
      config_state long
        (memcpy (memcpy (zeroed PROP_VALUE_MAX) 0 (props "persist.mdm.domain_id").bytes) 0
          (w.kern.fetch CONFIG_PATH PROP_VALUE_MAX).1)
        { w with kern := (w.kern.fetch CONFIG_PATH PROP_VALUE_MAX).2 } := by
  have hlen : ¬ (props "persist.mdm.domain_id").bytes.length = 0 := by
    rw [List.length_eq_zero_iff]
    exact hset
  have haccess : w.kern.sysAccess CONFIG_PATH = 0 := w.kern.sysAccess_some hd hp
  rw [get_security_state, if_neg hlen, if_neg (not_not.mpr hnumber),
    bind_ok (access_ok haccess), if_neg (not_not.mpr rfl), Kernel.fetch]
  cases hopen : w.kern.sysOpen CONFIG_PATH { acc := .rdonly } with
  | mk fd k₁ =>
      rw [bind_ok (linker_open_ok hopen)]
      by_cases hfd : fd > 0
      · simp only [if_pos hfd]
        cases hread : k₁.sysRead fd PROP_VALUE_MAX with
        | mk r k₂ =>
            rw [bind_ok (linker_read_ok hread)]
            exact bind_ok (linker_close_ok rfl)
      · simp only [if_neg hfd]
        have hkeep : ∀ value : List UInt8, memcpy value 0 [] = value :=
          fun value => memcpy_front (Nat.zero_le _)
        rw [hkeep]

/-- The result is the one that the file's content asks for.  With the property empty, or
    the file refused, that is 0; otherwise the string in the buffer is parsed without meeting
    a null token, and says what the content says. -/
def SetRight (long : Nat) (property content : List UInt8) (got : Option (List UInt8)) : Prop :=
  match got with
  | none => configured long content = 0
  | some got =>
      if property = [] then configured long content = 0
      else Parses (loaded property got) ∧
        configured long (loaded property got) = configured long content

/-- A file that covers the property and holds no NUL is parsed as it is: only a null token can
    go wrong. -/
theorem setRight_covering {property content : List UInt8} (hset : property ≠ [])
    (hlen : property.length ≤ content.length) (hnul : 0 ∉ content) :
    SetRight long property content (some content) ↔ Parses content := by
  have hload : loaded property content = content := by
    rw [loaded, List.drop_of_length_le hlen, List.append_nil, cstr_of_not_mem hnul]
  rw [SetRight, if_neg hset, hload]
  exact and_iff_left rfl

theorem security_state_run {content : List UInt8}
    (hp : w.kern.files.content CONFIG_PATH = some content)
    (hshort : content.length < PROP_VALUE_MAX)
    (hnumber : atoi long (props "persist.mdm.domain_id").bytes = domain) :
    (∃ w', get_security_state long props domain w = .ok (configured long content, w')) ↔
      SetRight long (props "persist.mdm.domain_id").bytes content
        (w.kern.asked CONFIG_PATH PROP_VALUE_MAX) := by
  obtain ⟨i, hi, rfl⟩ := (w.kern.files.content_eq_some).mp hp
  -- the function gives 0 and asks nothing more
  have hzero : get_security_state long props domain w = .ok (0, w) →
      ((∃ w', get_security_state long props domain w =
          .ok (configured long (w.kern.files.data i), w')) ↔
        configured long (w.kern.files.data i) = 0) := by
    intro hrun
    rw [hrun]
    constructor
    · rintro ⟨w', h⟩
      exact (Prod.mk.inj (Except.ok.inj h)).1.symm
    · intro h
      exact ⟨w, by rw [h]⟩
  rw [Kernel.asked]
  by_cases hset : (props "persist.mdm.domain_id").bytes = []
  · have hright : ∀ got : Option (List UInt8), SetRight long
        (props "persist.mdm.domain_id").bytes (w.kern.files.data i) got ↔
        configured long (w.kern.files.data i) = 0 := by
      intro got
      cases got with
      | none => exact Iff.rfl
      | some got => rw [SetRight, if_pos hset]
    rw [hright]
    exact hzero (by rw [get_security_state, if_pos (by rw [hset]; rfl)]; rfl)
  · by_cases haccess : w.kern.sysAccess CONFIG_PATH = 0
    · have hgot := Nat.lt_of_le_of_lt (Kernel.fetch_prefix hi PROP_VALUE_MAX).length_le hshort
      obtain ⟨hnul, hstr⟩ := loaded_eq (props "persist.mdm.domain_id").short hgot
      rw [if_pos haccess, SetRight, if_neg hset,
        get_security_state_run hset hnumber (w.kern.sysAccess_zero.mp haccess).1 hi]
      constructor
      · rintro ⟨w', hrun⟩
        obtain ⟨hparses, heq, -⟩ := (config_state_ok hnul _ _).mp hrun
        rw [hstr] at hparses heq
        exact ⟨hparses, heq.symm⟩
      · rintro ⟨hparses, heq⟩
        exact ⟨_, (config_state_ok hnul _ _).mpr ⟨hstr ▸ hparses, by rw [hstr, heq], rfl⟩⟩
    · -- the file is refused
      rw [if_neg haccess, SetRight]
      refine hzero ?_
      have hlen : ¬ (props "persist.mdm.domain_id").bytes.length = 0 := by
        rw [List.length_eq_zero_iff]
        exact hset
      rw [get_security_state, if_neg hlen, if_neg (not_not.mpr hnumber),
        bind_ok (access_ok rfl), if_pos haccess]
      rfl

/-- **When the result depends on the file alone**: exactly when the string in the buffer has
    the tokens that are asked for and says what the content says.  Then two spellings of the
    property give the same result.  On a calm host with descriptor 0 in use the bytes read
    are the content. -/
theorem security_state_iff (long : Nat) (props : Properties) (domain : Int) (w : World)
    (content : List UInt8) (hp : w.kern.files.content CONFIG_PATH = some content)
    (hshort : content.length < PROP_VALUE_MAX)
    (hnumber : atoi long (props "persist.mdm.domain_id").bytes = domain) :
    ((∃ w', get_security_state long props domain w = .ok (configured long content, w')) ↔
      SetRight long (props "persist.mdm.domain_id").bytes content
        (w.kern.asked CONFIG_PATH PROP_VALUE_MAX)) ∧
    (∀ props₂ : Properties, atoi long (props₂ "persist.mdm.domain_id").bytes = domain →
      SetRight long (props "persist.mdm.domain_id").bytes content
        (w.kern.asked CONFIG_PATH PROP_VALUE_MAX) →
      SetRight long (props₂ "persist.mdm.domain_id").bytes content
        (w.kern.asked CONFIG_PATH PROP_VALUE_MAX) →
      ∃ r w₁ w₂, get_security_state long props domain w = .ok (r, w₁) ∧
        get_security_state long props₂ domain w = .ok (r, w₂)) ∧
    (w.kern.host.Calm → w.kern.InUse 0 →
      w.kern.asked CONFIG_PATH PROP_VALUE_MAX = some content) := by
  refine ⟨security_state_run hp hshort hnumber, fun props₂ hnumber₂ h h' => ?_, fun hc h0 => ?_⟩
  · obtain ⟨w₁, hrun⟩ := (security_state_run hp hshort hnumber).mpr h
    obtain ⟨w₂, hrun'⟩ := (security_state_run hp hshort hnumber₂).mpr h'
    exact ⟨_, w₁, w₂, hrun, hrun'⟩
  · exact Kernel.asked_whole hc h0 hp (Nat.le_of_lt hshort)

/-- The switch of a domain: its own state, and the one of the configuration when that is 0. -/
theorem get_domain_state_eq (hdomain : get_process_domain long props = domain)
    (hne : domain ≠ 0) :
    get_domain_state long props w =
      if get_personal_state props domain ≠ 0 then .ok (get_personal_state props domain, w)
      else get_security_state long props domain w := by
  rw [get_domain_state, hdomain, if_neg hne]
  by_cases hpersonal : get_personal_state props domain ≠ 0
  · rw [if_pos hpersonal, if_pos hpersonal]
    rfl
  · rw [if_neg hpersonal, if_neg hpersonal]
    have hsame : ∀ r : Int, (if r ≠ 0 then pure r else pure 0 : Sys Int) = pure r := by
      intro r
      by_cases hr : r = 0
      · rw [if_neg (not_not.mpr hr), hr]
      · rw [if_pos hr]
    simp only [hsame, bind_pure]

/-- **The switch of a positive domain**, when the lookup in the list of pairs hits right: its
    state there, and only when that is 0 the configuration. -/
theorem domain_state_right {sep : Separator} {pairs : List Pair}
    (hdomain : get_process_domain long props = domain) (hd : 0 < domain)
    (hvalue : (props "persist.encryption.enable").bytes = joined sep pairs)
    (hright : HitsRight sep pairs domain) :
    get_domain_state long props w =
      if stateOf pairs domain ≠ 0 then .ok (stateOf pairs domain, w)
      else get_security_state long props domain w := by
  rw [get_domain_state_eq hdomain (by omega), get_personal_state_right hd hvalue hright]

end Run

/-! ## Some configurations -/

/-- A process with the configuration file and descriptor 0 in use. -/
def configWorld (content : List UInt8) : World := ⟨Kernel.namedFile CONFIG_PATH content, []⟩

theorem configWorld_got {content : List UInt8} (h : content.length < PROP_VALUE_MAX) :
    ((configWorld content).kern.fetch CONFIG_PATH PROP_VALUE_MAX).1 = content := by
  exact Kernel.namedFile_fetch (Nat.le_of_lt h)

theorem configWorld_asked {content : List UInt8} (h : content.length < PROP_VALUE_MAX) :
    (configWorld content).kern.asked CONFIG_PATH PROP_VALUE_MAX = some content :=
  Kernel.asked_whole (fun _ => ⟨rfl, rfl, rfl⟩) (List.mem_cons_self ..)
    (Kernel.namedFile_content _ _) (Nat.le_of_lt h)

def five : PropValue := ⟨text "5", by decide, by decide⟩

def longFive : PropValue := ⟨text "0000005:1", by decide, by decide⟩

/-- The intended configuration. -/
theorem security_state_intended : ∃ w',
    get_security_state 32 (fun _ => five) 5 (configWorld (text "encrypt:1")) = .ok (1, w') := by
  refine (security_state_iff 32 (fun _ => five) 5 (configWorld (text "encrypt:1"))
    (text "encrypt:1") (Kernel.namedFile_content _ _) (by decide) (by decide)).1.mpr ?_
  rw [configWorld_asked (by decide), SetRight, if_neg (by decide)]
  exact ⟨.inr ⟨text "encrypt", [text "1"], by decide, fun _ => by decide⟩, by decide⟩

/-- A file with a colon only: the first token is null.  And a file without a number: it is
    taken from what is left of the property. -/
theorem security_state_fails :
    get_security_state 32 (fun _ => five) 5 (configWorld (text ":")) = .error .undefined ∧
    configured 32 (text "encrypt") = 0 ∧
    ∃ w', get_security_state 32 (fun _ => longFive) 5 (configWorld (text "encrypt")) =
      .ok (1, w') := by
  refine ⟨?_, by decide, { configWorld (text "encrypt") with
    kern := ((configWorld (text "encrypt")).kern.fetch CONFIG_PATH PROP_VALUE_MAX).2 }, ?_⟩
  · rw [get_security_state_run (by decide) (by decide) rfl (Kernel.namedFile_names _ _),
      configWorld_got (by decide)]
    obtain ⟨hnul, hstr⟩ := @loaded_eq five.bytes (text ":") (by decide) (by decide)
    rw [config_state_words hnul (by rw [hstr]; decide), hstr]
    rfl
  · rw [get_security_state_run (by decide) (by decide) rfl (Kernel.namedFile_names _ _),
      configWorld_got (by decide)]
    obtain ⟨hnul, hstr⟩ := @loaded_eq longFive.bytes (text "encrypt") (by decide) (by decide)
    rw [config_state_words hnul (by rw [hstr]; decide), hstr]
    rfl

end TeSecurity
