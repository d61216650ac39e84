import TransEncrypt.CStringProofs

/-! # Recognising a file by its extension — `get_tid_by_path` and `getfid`

    `ports/ftype.c` looks for the first occurrence of an extension anywhere in the path
    and compares all that follows with it; `init/ftype.c`, the version that is built,
    compares what follows the first dot of the name.

    * `endsIn_unique`: a path ends in at most one extension of the table;
    * `typeHit_iff`, `fidHit_iff`: when an entry matches in either function;
    * `recognition_iff`: `get_tid_by_path` is right about a path exactly when the
      extension it ends in does not occur before the end as well;
    * `lookups_agree_iff`: the functions agree exactly when such a path has no dot before
      its extension. -/

namespace TeFtype

open CString

/-! ## The tables -/

/-- `struct type` and `struct ftype`. -/
structure FileType where
  name : List UInt8
  id : Nat
  deriving DecidableEq, Repr

/-- Entries with consecutive ids, as the enumeration of `ports/ftype.c` gives them. -/
def numbered (first : Nat) (names : List String) : List FileType :=
  names.zipIdx.map (fun e => ⟨text e.1, first + e.2⟩)

/-- The table of `ports/ftype.c`: documents, pictures, sound, films, archives. -/
def types : List FileType :=
  numbered 100 [".doc", ".docx", ".dot", ".dotx", ".wps", ".wpt", ".ppt", ".pptx", ".pot",
    ".potx", ".pps", ".dps", ".dpt", ".xls", ".xlt", ".xlsx", ".xltx", ".et", ".ett", ".pdf",
    ".txt"] ++
  numbered 200 [".jpg", ".jpeg", ".jpeg2000", ".png", ".bmp", ".gif", ".tif", ".tiff"] ++
  numbered 300 [".cd", ".wav", ".mp3", ".wma", ".ape", ".flac", ".mid"] ++
  numbered 400 [".avi", ".mov", ".wmv", ".3gp", ".mp4", ".mp4.tmp", ".rmvb", ".mpeg"] ++
  numbered 500 [".rar", ".zip"]

/-- The table of `init/ftype.c`, with the ids of `init/ftype.h`. -/
def flist : List FileType :=
  [⟨text ".doc", 100⟩, ⟨text ".docx", 101⟩, ⟨text ".dot", 102⟩, ⟨text ".dotx", 103⟩,
   ⟨text ".wps", 104⟩, ⟨text ".wpt", 105⟩, ⟨text ".ppt", 106⟩, ⟨text ".pptx", 107⟩,
   ⟨text ".pot", 108⟩, ⟨text ".potx", 109⟩, ⟨text ".pps", 110⟩, ⟨text ".dps", 111⟩,
   ⟨text ".dpt", 112⟩, ⟨text ".xls", 113⟩, ⟨text ".xlt", 114⟩, ⟨text ".xlsx", 115⟩,
   ⟨text ".xltx", 116⟩, ⟨text ".et", 117⟩, ⟨text ".ett", 118⟩, ⟨text ".pdf", 119⟩,
   ⟨text ".txt", 120⟩,
   ⟨text ".jpg", 200⟩, ⟨text ".jpeg", 201⟩, ⟨text ".jpeg2000", 202⟩, ⟨text ".png", 203⟩,
   ⟨text ".bmp", 204⟩, ⟨text ".gif", 205⟩, ⟨text ".tif", 206⟩, ⟨text ".tiff", 207⟩,
   ⟨text ".cd", 300⟩, ⟨text ".wav", 301⟩, ⟨text ".mp3", 302⟩, ⟨text ".wma", 303⟩,
   ⟨text ".ape", 304⟩, ⟨text ".flac", 305⟩, ⟨text ".mid", 306⟩,
   ⟨text ".avi", 400⟩, ⟨text ".mov", 401⟩, ⟨text ".wmv", 402⟩, ⟨text ".3gp", 403⟩,
   ⟨text ".mp4", 404⟩, ⟨text ".mp4.tmp", 405⟩, ⟨text ".rmvb", 406⟩, ⟨text ".mpeg", 407⟩,
   ⟨text ".rar", 500⟩, ⟨text ".zip", 501⟩]

/-- The two files hold the same table. -/
theorem flist_eq_types : flist = types := by decide +kernel

/-- The extension, ignoring case. -/
def FileType.ext (t : FileType) : List UInt8 := t.name.map tolower

theorem ext_length (t : FileType) : t.ext.length = t.name.length := List.length_map _

/-- Every extension starts with a dot, and no id is 0. -/
theorem types_dot : ∀ t ∈ types, t.ext.head? = some 0x2e ∧ t.id ≠ 0 := by decide +kernel

/-- No extension of the table ends in another one. -/
theorem types_suffix : ∀ s ∈ types, ∀ t ∈ types, s.ext <:+ t.ext → s = t := by decide +kernel

/-! ## The lookups -/

/-- The loop over a table: the id of the first entry that matches, else 0. -/
def lookup (hit : FileType → Bool) (table : List FileType) : Nat :=
  match table.find? hit with
  | some t => t.id
  | none => 0

/-- The body of the loop of `get_tid_by_path`. -/
def typeHit (path : List UInt8) (t : FileType) : Bool :=
  match strcasestr path t.name with
  | none => false
  | some type => strncasecmp type t.name type.length = .eq

def get_tid_by_path (path : List UInt8) : Nat :=
  match strrchr path 0x2e with
  | none => 0
  | some _ => lookup (typeHit path) types

/-- The body of the loop of `getfid`. -/
def fidHit (sname : List UInt8) (t : FileType) : Bool :=
  match strcasestr sname t.name with
  | none => false
  | some _ => strncasecmp sname t.name sname.length = .eq

def getfid (filename : List UInt8) : Nat :=
  match strchr filename 0x2e with
  | none => 0
  | some sname => lookup (fidHit sname) flist

section Lookup

variable {hit : FileType → Bool} {table : List FileType} {t : FileType}

theorem lookup_eq_zero (h : ∀ t ∈ table, hit t = false) : lookup hit table = 0 := by
  have : table.find? hit = none := List.find?_eq_none.mpr fun t ht => by simp [h t ht]
  rw [lookup, this]

/-- The only entry that matches is found. -/
theorem lookup_unique (ht : t ∈ table) (hhit : hit t = true)
    (huniq : ∀ s ∈ table, hit s = true → s = t) : lookup hit table = t.id := by
  cases hfind : table.find? hit with
  | none => exact absurd hhit (List.find?_eq_none.mp hfind t ht)
  | some s =>
      have hs := huniq s (List.mem_of_find?_eq_some hfind) (List.find?_some hfind)
      rw [lookup, hfind, hs]

end Lookup

/-! ## Where an extension stands -/

section Places

variable {path : List UInt8} {s t : FileType}

/-- The path ends in the extension, ignoring case. -/
def EndsIn (path : List UInt8) (t : FileType) : Prop := t.ext <:+ path.map tolower

/-- The extension stands in the path before its last character, where something follows. -/
def Elsewhere (path : List UInt8) (t : FileType) : Prop := t.ext <:+: path.dropLast.map tolower

/-- There is a dot before the place where an extension ends the path. -/
def DotBefore (path : List UInt8) (t : FileType) : Prop :=
  0x2e ∈ path.take (path.length - t.name.length)

instance : Decidable (EndsIn path t) := inferInstanceAs (Decidable (_ <:+ _))
instance : Decidable (Elsewhere path t) := inferInstanceAs (Decidable (_ <:+: _))
instance : Decidable (DotBefore path t) := inferInstanceAs (Decidable (_ ∈ _))

theorem endsIn_iff : EndsIn path t ↔ ∃ a b, path = a ++ b ∧ b.map tolower = t.ext := by
  constructor
  · rintro ⟨a, h⟩
    obtain ⟨a', b, rfl, rfl, hb⟩ := List.map_eq_append_iff.mp h.symm
    exact ⟨a', b, rfl, hb⟩
  · rintro ⟨a, b, rfl, hb⟩
    rw [EndsIn, ← hb, List.map_append]
    exact List.suffix_append ..

/-- **At most one** entry of the table is the extension of a path. -/
theorem endsIn_unique (hs : s ∈ types) (ht : t ∈ types) (h₁ : EndsIn path s)
    (h₂ : EndsIn path t) : s = t := by
  rcases List.suffix_or_suffix_of_suffix h₁ h₂ with h | h
  · exact types_suffix s hs t ht h
  · exact (types_suffix t ht s hs h).symm

theorem ext_ne_nil (ht : t ∈ types) : t.ext ≠ [] := by
  rintro h
  have := (types_dot t ht).1
  rw [h] at this
  cases this

/-- A suffix of the path that starts with the extension and is longer than it. -/
theorem elsewhere_iff (ht : t ∈ types) : Elsewhere path t ↔
    ∃ u, u <:+ path ∧ t.ext.length < u.length ∧ t.ext <+: u.map tolower := by
  rw [Elsewhere, List.map_dropLast, infix_dropLast_iff (ext_ne_nil ht)]
  constructor
  · rintro ⟨_, ⟨a, h⟩, hlt, hpre⟩
    obtain ⟨a', u, rfl, -, rfl⟩ := List.map_eq_append_iff.mp h.symm
    exact ⟨u, List.suffix_append .., by rwa [List.length_map] at hlt, hpre⟩
  · rintro ⟨u, hu, hlt, hpre⟩
    exact ⟨u.map tolower, hu.map tolower, by rwa [List.length_map], hpre⟩

/-- **When `get_tid_by_path` takes an entry**: its extension ends the path and stands nowhere
    before. -/
theorem typeHit_iff (ht : t ∈ types) :
    typeHit path t = true ↔ EndsIn path t ∧ ¬ Elsewhere path t := by
  rw [elsewhere_iff ht, endsIn_iff, typeHit]
  constructor
  · intro h
    cases hfind : strcasestr path t.name with
    | none => rw [hfind] at h; cases h
    | some type =>
        rw [hfind] at h
        obtain ⟨⟨a, rfl⟩, hpre, hfirst⟩ := strcasestr_eq_some_iff.mp hfind
        have hcmp := strncasecmp_length.mp (of_decide_eq_true h)
        have hext : type.map tolower = t.ext := hcmp.eq_of_length_le hpre.length_le
        refine ⟨⟨a, type, rfl, hext⟩, ?_⟩
        rintro ⟨u, hu, hlt, hpre'⟩
        rw [← hext, List.length_map] at hlt
        exact hfirst u hu hlt hpre'
  · rintro ⟨⟨a, b, rfl, hb⟩, hno⟩
    have hfind : strcasestr (a ++ b) t.name = some b := by
      refine strcasestr_eq_some_iff.mpr ⟨List.suffix_append .., ?_, fun u hu hlt hpre => ?_⟩
      · rw [hb]
        exact List.prefix_rfl
      · exact hno ⟨u, hu, by rw [← hb, List.length_map]; exact hlt, hpre⟩
    rw [hfind]
    refine decide_eq_true (strncasecmp_length.mpr ?_)
    rw [hb]
    exact List.prefix_rfl

/-- **When `getfid` takes an entry**: all that follows the first dot is its extension. -/
theorem fidHit_iff {sname : List UInt8} : fidHit sname t = true ↔ sname.map tolower = t.ext := by
  rw [fidHit]
  constructor
  · intro h
    cases hfind : strcasestr sname t.name with
    | none => rw [hfind] at h; cases h
    | some type =>
        rw [hfind] at h
        obtain ⟨htype, hpre, -⟩ := strcasestr_eq_some_iff.mp hfind
        have hcmp := strncasecmp_length.mp (of_decide_eq_true h)
        have hle : t.ext.length ≤ (sname.map tolower).length := by
          rw [List.length_map]
          exact hpre.length_le.trans (by rw [List.length_map]; exact htype.length_le)
        exact hcmp.eq_of_length_le hle
  · intro h
    cases hfind : strcasestr sname t.name with
    | none =>
        have := strcasestr_eq_none_iff.mp hfind sname List.suffix_rfl
        rw [h] at this
        exact absurd List.prefix_rfl this
    | some type =>
        refine decide_eq_true (strncasecmp_length.mpr ?_)
        rw [h]
        exact List.prefix_rfl

/-- What is an extension, ignoring case, starts with a dot. -/
theorem ext_dot (ht : t ∈ types) {b : List UInt8} (hb : b.map tolower = t.ext) :
    ∃ c, b = 0x2e :: c := by
  have hdot := (types_dot t ht).1
  rw [← hb] at hdot
  cases b with
  | nil => cases hdot
  | cons x c =>
      have hx : tolower x = 0x2e := by simpa using hdot
      exact ⟨c, by rw [tolower_eq_dot.mp hx]⟩

/-- What stands before the place where an extension ends the path. -/
theorem dotBefore_iff {a b : List UInt8} (hb : b.map tolower = t.ext) :
    DotBefore (a ++ b) t ↔ 0x2e ∈ a := by
  rw [DotBefore, ← ext_length, ← hb, List.length_map, List.length_append, Nat.add_sub_cancel,
    List.take_left]

/-- The part of a path before its first dot. -/
theorem dropWhile_dot {a b : List UInt8} (ha : 0x2e ∉ a) :
    (a ++ 0x2e :: b).dropWhile (· ≠ 0x2e) = 0x2e :: b := by
  refine (span_run (fun x hx => ?_) (fun x hx => ?_)).2
  · have : x ≠ 0x2e := fun h => ha (h ▸ hx)
    simpa using this
  · rw [← Option.some.inj hx]
    rfl

/-- What follows the first dot of a name is an extension exactly when the name ends in it and
    has no dot before. -/
theorem first_dot_ext (ht : t ∈ types) {a b : List UInt8} (ha : 0x2e ∉ a) :
    (0x2e :: b).map tolower = t.ext ↔
      EndsIn (a ++ 0x2e :: b) t ∧ ¬ DotBefore (a ++ 0x2e :: b) t := by
  constructor
  · intro h
    exact ⟨endsIn_iff.mpr ⟨a, _, rfl, h⟩, fun hdot => ha ((dotBefore_iff h).mp hdot)⟩
  · rintro ⟨hend, hno⟩
    obtain ⟨a', b', heq, hb⟩ := endsIn_iff.mp hend
    rw [heq, dotBefore_iff hb] at hno
    obtain ⟨c, rfl⟩ := ext_dot ht hb
    -- neither part before the dot has one, so the two cuts are the same
    have hcut : (a ++ 0x2e :: b).dropWhile (· ≠ 0x2e) =
        (a' ++ 0x2e :: c).dropWhile (· ≠ 0x2e) := by
      rw [heq]
    rw [dropWhile_dot ha, dropWhile_dot hno] at hcut
    rw [hcut, hb]

end Places

/-! ## What the lookups return -/

section Results

variable {path : List UInt8} {t : FileType}

theorem no_dot_endsIn (h : 0x2e ∉ path) : ∀ t ∈ types, ¬ EndsIn path t := by
  intro t ht hend
  obtain ⟨a, b, rfl, hb⟩ := endsIn_iff.mp hend
  obtain ⟨c, rfl⟩ := ext_dot ht hb
  exact h (by simp)

section Ends

/-! A lookup whose entries match where the path ends in them, unless something else is the
    case. -/

variable {hit : FileType → Bool} {spoilt : FileType → Prop}
  (hhit : ∀ s ∈ types, hit s = true ↔ EndsIn path s ∧ ¬ spoilt s)
include hhit

theorem lookup_no_end (h : ∀ t ∈ types, ¬ EndsIn path t) : lookup hit types = 0 := by
  refine lookup_eq_zero fun t ht => ?_
  rw [← Bool.not_eq_true, hhit t ht]
  exact fun hends => h t ht hends.1

/-- The entry that the path ends in is found, or none is. -/
theorem lookup_end [Decidable (spoilt t)] (ht : t ∈ types) (hend : EndsIn path t) :
    lookup hit types = if spoilt t then 0 else t.id := by
  by_cases hspoilt : spoilt t
  · rw [if_pos hspoilt]
    refine lookup_eq_zero fun s hs => ?_
    rw [← Bool.not_eq_true, hhit s hs]
    rintro ⟨hend', hno⟩
    exact hno (endsIn_unique ht hs hend hend' ▸ hspoilt)
  · rw [if_neg hspoilt]
    exact lookup_unique ht ((hhit t ht).mpr ⟨hend, hspoilt⟩) fun s hs h =>
      endsIn_unique hs ht ((hhit s hs).mp h).1 hend

end Ends

theorem get_tid_by_path_none (h : ∀ t ∈ types, ¬ EndsIn path t) : get_tid_by_path path = 0 := by
  rw [get_tid_by_path]
  cases strrchr path 0x2e with
  | none => rfl
  | some _ => exact lookup_no_end (fun s hs => typeHit_iff hs) h

/-- A path that ends in an extension of the table. -/
theorem get_tid_by_path_eq (ht : t ∈ types) (hend : EndsIn path t) :
    get_tid_by_path path = if Elsewhere path t then 0 else t.id := by
  rw [get_tid_by_path]
  cases hdot : strrchr path 0x2e with
  | none => exact absurd hend (no_dot_endsIn (strrchr_eq_none.mp hdot) t ht)
  | some _ => exact lookup_end (fun s hs => typeHit_iff hs) ht hend

/-- From the first dot on, an entry matches where the path ends in it and has no dot before. -/
theorem fidHit_strchr {sname : List UInt8} (hdot : strchr path 0x2e = some sname) :
    ∀ s ∈ types, fidHit sname s = true ↔ EndsIn path s ∧ ¬ DotBefore path s := by
  obtain ⟨a, b, rfl, rfl, ha⟩ := strchr_eq_some hdot
  exact fun s hs => fidHit_iff.trans (first_dot_ext hs ha)

theorem getfid_none (h : ∀ t ∈ types, ¬ EndsIn path t) : getfid path = 0 := by
  rw [getfid, flist_eq_types]
  cases hdot : strchr path 0x2e with
  | none => rfl
  | some sname => exact lookup_no_end (fidHit_strchr hdot) h

theorem getfid_eq (ht : t ∈ types) (hend : EndsIn path t) :
    getfid path = if DotBefore path t then 0 else t.id := by
  rw [getfid, flist_eq_types]
  cases hdot : strchr path 0x2e with
  | none => exact absurd hend (no_dot_endsIn (strchr_eq_none.mp hdot) t ht)
  | some sname => exact lookup_end (fidHit_strchr hdot) ht hend

/-- An extension that occurs before the end of a path has a dot there. -/
theorem dotBefore_of_elsewhere (ht : t ∈ types) (h : Elsewhere path t) : DotBefore path t := by
  obtain ⟨u, ⟨a, rfl⟩, hlt, hpre⟩ := (elsewhere_iff ht).mp h
  obtain ⟨v, hv⟩ : ∃ v, t.ext ++ v = u.map tolower := hpre
  obtain ⟨b, c, rfl, hb, -⟩ := List.map_eq_append_iff.mp hv.symm
  obtain ⟨d, rfl⟩ := ext_dot ht hb
  rw [ext_length] at hlt
  rw [DotBefore, List.length_append, Nat.add_sub_assoc (Nat.le_of_lt hlt), List.take_append,
    Nat.add_sub_cancel_left, List.mem_append]
  refine .inr ?_
  obtain ⟨n, hn⟩ := Nat.exists_eq_add_of_lt hlt
  rw [hn, show t.name.length + n + 1 - t.name.length = n + 1 by omega]
  simp

end Results

/-! ## Recognition -/

/-- The answer for a path is the one its end asks for. -/
def Recognised (path : List UInt8) : Prop :=
  (∀ t ∈ types, EndsIn path t → get_tid_by_path path = t.id) ∧
    ((∀ t ∈ types, ¬ EndsIn path t) → get_tid_by_path path = 0)

/-- **When recognition is exact**: a path ends in at most one listed extension, and the answer
    is the one for its end exactly when that extension does not occur before the end.  Of two
    such paths with the same end the answers are the same. -/
theorem recognition_iff (path path' : List UInt8) :
    (∀ s ∈ types, ∀ t ∈ types, EndsIn path s → EndsIn path t → s = t) ∧
    (Recognised path ↔ ∀ t ∈ types, EndsIn path t → ¬ Elsewhere path t) ∧
    (Recognised path → Recognised path' → (∀ t ∈ types, EndsIn path t ↔ EndsIn path' t) →
      get_tid_by_path path = get_tid_by_path path') := by
  refine ⟨fun s hs t ht => endsIn_unique hs ht, ⟨?_, ?_⟩, ?_⟩
  · rintro ⟨h, -⟩ t ht hend helse
    have heq := h t ht hend
    rw [get_tid_by_path_eq ht hend, if_pos helse] at heq
    exact (types_dot t ht).2 heq.symm
  · intro h
    refine ⟨fun t ht hend => ?_, get_tid_by_path_none⟩
    rw [get_tid_by_path_eq ht hend, if_neg (h t ht hend)]
  · intro h h' hsame
    by_cases hend : ∃ t ∈ types, EndsIn path t
    · obtain ⟨t, ht, hend⟩ := hend
      rw [h.1 t ht hend, h'.1 t ht ((hsame t ht).mp hend)]
    · have hno : ∀ t ∈ types, ¬ EndsIn path t := fun t ht hend' => hend ⟨t, ht, hend'⟩
      rw [h.2 hno, h'.2 fun t ht hend' => hno t ht ((hsame t ht).mpr hend')]

/-- The extension twice: the path ends in it, and no entry matches. -/
theorem recognition_misses :
    get_tid_by_path (text "/sdcard/a.doc.doc") = 0 ∧ ¬ Recognised (text "/sdcard/a.doc.doc") := by
  have hzero : get_tid_by_path (text "/sdcard/a.doc.doc") = 0 := by decide +kernel
  refine ⟨hzero, fun h => ?_⟩
  have hid := h.1 ⟨text ".doc", 100⟩ (by decide +kernel) (by decide +kernel)
  rw [hzero] at hid
  cases hid

/-! ## The two lookups -/

/-- **When the two lookups agree**: when a path whose listed extension occurs only at the end
    has no dot before it. -/
theorem lookups_agree_iff (path : List UInt8) :
    getfid path = get_tid_by_path path ↔
      ∀ t ∈ types, EndsIn path t → Elsewhere path t ∨ ¬ DotBefore path t := by
  constructor
  · intro h t ht hend
    rw [getfid_eq ht hend, get_tid_by_path_eq ht hend] at h
    by_cases helse : Elsewhere path t
    · exact .inl helse
    · rw [if_neg helse] at h
      refine .inr fun hbefore => ?_
      rw [if_pos hbefore] at h
      exact (types_dot t ht).2 h.symm
  · intro h
    by_cases hend : ∃ t ∈ types, EndsIn path t
    · obtain ⟨t, ht, hend⟩ := hend
      rw [getfid_eq ht hend, get_tid_by_path_eq ht hend]
      rcases h t ht hend with helse | hbefore
      · rw [if_pos helse, if_pos (dotBefore_of_elsewhere ht helse)]
      · have hno : ¬ Elsewhere path t := fun helse => hbefore (dotBefore_of_elsewhere ht helse)
        rw [if_neg hbefore, if_neg hno]
    · have hno : ∀ t ∈ types, ¬ EndsIn path t := fun t ht hend' => hend ⟨t, ht, hend'⟩
      rw [getfid_none hno, get_tid_by_path_none hno]

/-- A second dot: the last extension is what one of them goes by. -/
theorem lookups_disagree :
    getfid (text "report.v2.doc") = 0 ∧ get_tid_by_path (text "report.v2.doc") = 100 := by
  decide +kernel

end TeFtype
