import Mathlib.Data.List.Basic
import Mathlib.Data.List.Infix
import Mathlib.Data.List.TakeWhile
import Mathlib.Tactic.Common

/-! # C strings — searching, comparing and cutting the bytes before a NUL

    A string is the list of its characters; `cstr` reads one out of memory.  Pointers
    into a string are its suffixes, and of a comparison only the order counts.

    * `firstSuffix` is the leftmost place with a property; `strchr`, `strstr` and
      `strcasestr` are instances, and `firstSuffix_eq_some_iff` says what they find;
    * `strncmp_eq`, `strncasecmp_length`: when two strings compare equal;
    * `tokens` are the longest stretches without a delimiter, and two calls of `strtok`
      yield the first two (`strtok_first`, `strtok_second`). -/

namespace CString

/-! ## Strings in memory -/

/-- The string at the start of a piece of memory: the bytes before the first NUL. -/
def cstr (mem : List UInt8) : List UInt8 := mem.takeWhile (· ≠ 0)

/-- The length of the string; none when the memory ends before a NUL. -/
def strlen (mem : List UInt8) : Option Nat :=
  if 0 ∈ mem then some (cstr mem).length else none

theorem nul_not_mem_cstr (mem : List UInt8) : 0 ∉ cstr mem := by
  intro h
  simpa using List.mem_takeWhile_imp h

theorem cstr_append {s : List UInt8} (h : 0 ∉ s) (rest : List UInt8) :
    cstr (s ++ rest) = s ++ cstr rest := by
  rw [cstr, List.takeWhile_append_of_pos]
  · rfl
  · intro c hc
    have : c ≠ 0 := fun h0 => h (h0 ▸ hc)
    simpa using this

@[simp] theorem cstr_nul (rest : List UInt8) : cstr (0 :: rest) = [] := rfl

theorem cstr_terminated {s : List UInt8} (h : 0 ∉ s) (rest : List UInt8) :
    cstr (s ++ 0 :: rest) = s := by
  rw [cstr_append h, cstr_nul, List.append_nil]

theorem cstr_of_not_mem {s : List UInt8} (h : 0 ∉ s) : cstr s = s := by
  have := cstr_append h []
  rwa [List.append_nil, show cstr [] = [] from rfl, List.append_nil] at this

/-- Memory with a NUL is a string, the NUL and what follows. -/
theorem exists_terminated {mem : List UInt8} (h : 0 ∈ mem) :
    ∃ s rest, 0 ∉ s ∧ mem = s ++ 0 :: rest := by
  obtain ⟨s, rest, rfl, hs⟩ := List.eq_append_cons_of_mem h
  exact ⟨s, rest, hs, rfl⟩

/-- Zeros behind a string. -/
theorem cstr_zeros (s : List UInt8) (n : Nat) : cstr (s ++ List.replicate n 0) = cstr s := by
  by_cases h : 0 ∈ s
  · obtain ⟨t, rest, ht, rfl⟩ := exists_terminated h
    rw [List.append_assoc, List.cons_append, cstr_terminated ht, cstr_terminated ht]
  · rw [cstr_append h, cstr_of_not_mem h]
    cases n with
    | zero => exact List.append_nil s
    | succ n => exact List.append_nil s

theorem strlen_terminated {s : List UInt8} (h : 0 ∉ s) (rest : List UInt8) :
    strlen (s ++ 0 :: rest) = some s.length := by
  rw [strlen, if_pos (by simp), cstr_terminated h]

/-! ## Characters -/

/-- The characters of a string constant. -/
def text (s : String) : List UInt8 := s.toList.map (fun c => UInt8.ofNat c.toNat)

/-- White space of the C locale: the blank, and tab to carriage return. -/
def isspace (c : UInt8) : Bool := c = 0x20 || (0x09 ≤ c && c ≤ 0x0d)

def tolower (c : UInt8) : UInt8 := if 0x41 ≤ c ∧ c ≤ 0x5a then c + 0x20 else c

/-- Ignoring case, only the dot is a dot. -/
theorem tolower_eq_dot {c : UInt8} : tolower c = 0x2e ↔ c = 0x2e := by
  rw [tolower]
  split
  · next h =>
      obtain ⟨h1, h2⟩ := h
      rw [← UInt8.toNat_inj, ← UInt8.toNat_inj, UInt8.toNat_add]
      rw [UInt8.le_iff_toNat_le] at h1 h2
      simp only [UInt8.reduceToNat] at h1 h2 ⊢
      omega
  · exact .rfl

/-! ## The leftmost place -/

section Search

variable {α : Type} {p : List α → Bool} {l t : List α}

/-- The longest suffix with a property: what follows the leftmost place that has it. -/
def firstSuffix (p : List α → Bool) : List α → Option (List α)
  | [] => if p [] then some [] else none
  | a :: l => if p (a :: l) then some (a :: l) else firstSuffix p l

theorem firstSuffix_eq_none_iff :
    firstSuffix p l = none ↔ ∀ t, t <:+ l → p t = false := by
  induction l with
  | nil => simp [firstSuffix]
  | cons a l ih =>
      rw [firstSuffix]
      by_cases ha : p (a :: l) = true
      · rw [if_pos ha]
        refine iff_of_false (Option.some_ne_none _) fun h => ?_
        exact Bool.false_ne_true ((h _ List.suffix_rfl).symm.trans ha)
      · rw [if_neg ha, ih]
        constructor
        · intro h t ht
          rcases List.suffix_cons_iff.mp ht with rfl | ht
          · simpa using ha
          · exact h t ht
        · intro h t ht
          exact h t (ht.trans (List.suffix_cons a l))

/-- **Where the search stops**: at a suffix with the property, and no longer suffix
    has it. -/
theorem firstSuffix_eq_some_iff :
    firstSuffix p l = some t ↔
      t <:+ l ∧ p t = true ∧ ∀ u, u <:+ l → t.length < u.length → p u = false := by
  induction l with
  | nil =>
      rw [firstSuffix]
      by_cases h : p [] = true
      · rw [if_pos h, Option.some_inj]
        constructor
        · rintro rfl
          refine ⟨List.suffix_rfl, h, fun u hu hlt => ?_⟩
          rw [List.suffix_nil.mp hu] at hlt
          exact absurd hlt (Nat.lt_irrefl _)
        · rintro ⟨ht, -, -⟩
          exact (List.suffix_nil.mp ht).symm
      · rw [if_neg h]
        refine iff_of_false (fun h => by cases h) ?_
        rintro ⟨ht, hp, -⟩
        rw [List.suffix_nil.mp ht] at hp
        exact h hp
  | cons a l ih =>
      rw [firstSuffix]
      by_cases ha : p (a :: l) = true
      · rw [if_pos ha, Option.some_inj]
        constructor
        · rintro rfl
          exact ⟨List.suffix_rfl, ha, fun u hu hlt => absurd hu.length_le (by omega)⟩
        · rintro ⟨ht, -, hfirst⟩
          rcases List.suffix_cons_iff.mp ht with rfl | ht
          · rfl
          · have hlt : t.length < (a :: l).length := Nat.lt_succ_of_le ht.length_le
            have hno := hfirst (a :: l) List.suffix_rfl hlt
            exact absurd (hno.symm.trans ha) Bool.false_ne_true
      · rw [if_neg ha, ih]
        constructor
        · rintro ⟨ht, hp, hfirst⟩
          refine ⟨ht.trans (List.suffix_cons a l), hp, fun u hu hlt => ?_⟩
          rcases List.suffix_cons_iff.mp hu with rfl | hu
          · simpa using ha
          · exact hfirst u hu hlt
        · rintro ⟨ht, hp, hfirst⟩
          rcases List.suffix_cons_iff.mp ht with rfl | ht
          · exact absurd hp ha
          · exact ⟨ht, hp, fun u hu => hfirst u (hu.trans (List.suffix_cons a l))⟩

/-- A stretch with a property of its characters, up to a character without it. -/
theorem span_run {q : α → Bool} {s rest : List α} (hs : ∀ c ∈ s, q c = true)
    (hrest : ∀ c ∈ rest.head?, q c = false) :
    (s ++ rest).takeWhile q = s ∧ (s ++ rest).dropWhile q = rest := by
  rw [List.takeWhile_append_of_pos hs, List.dropWhile_append_of_pos hs]
  cases rest with
  | nil => exact ⟨List.append_nil s, rfl⟩
  | cons c rest =>
      have hc : ¬ q c = true := by simpa using hrest c rfl
      rw [List.takeWhile_cons_of_neg hc, List.dropWhile_cons_of_neg hc]
      exact ⟨List.append_nil s, rfl⟩

/-- What follows a character without the property is not looked at. -/
theorem takeWhile_stop {q : α → Bool} (s rest : List α) {c : α} (hc : q c = false) :
    (s ++ c :: rest).takeWhile q = s.takeWhile q := by
  rw [List.takeWhile_append, List.takeWhile_cons_of_neg (by simp [hc])]
  split
  · next h =>
      rw [List.append_nil]
      exact ((List.takeWhile_prefix q).eq_of_length h).symm
  · rfl

/-- Something stands before the last character: it starts a suffix that is longer than it. -/
theorem infix_dropLast_iff {n : List α} (hn : n ≠ []) :
    n <:+: l.dropLast ↔ ∃ u, u <:+ l ∧ n.length < u.length ∧ n <+: u := by
  constructor
  · rintro ⟨a, c, h⟩
    have hl : l ≠ [] := by
      rintro rfl
      simp [hn] at h
    refine ⟨n ++ (c ++ [l.getLast hl]), ⟨a, ?_⟩, ?_, List.prefix_append ..⟩
    · rw [← List.append_assoc, ← List.append_assoc, h, List.dropLast_append_getLast]
    · simp only [List.length_append, List.length_singleton]
      omega
  · rintro ⟨_, ⟨a, rfl⟩, hlt, ⟨c, rfl⟩⟩
    have hc : c ≠ [] := by
      rintro rfl
      simp at hlt
    rw [← List.append_assoc, List.dropLast_append_of_ne_nil hc]
    exact List.infix_append ..

end Search

/-- The first place of a character. -/
def strchr (s : List UInt8) (c : UInt8) : Option (List UInt8) :=
  firstSuffix (fun t => t.head? = some c) s

/-- The last place of a character. -/
def strrchr : List UInt8 → UInt8 → Option (List UInt8)
  | [], _ => none
  | a :: s, c => (strrchr s c).or (if a = c then some (a :: s) else none)

/-- The first place where `needle` stands. -/
def strstr (s needle : List UInt8) : Option (List UInt8) :=
  firstSuffix (fun t => needle.isPrefixOf t) s

/-- The first place where `needle` stands, ignoring case. -/
def strcasestr (s needle : List UInt8) : Option (List UInt8) :=
  firstSuffix (fun t => (needle.map tolower).isPrefixOf (t.map tolower)) s

theorem strrchr_eq_none {s : List UInt8} {c : UInt8} : strrchr s c = none ↔ c ∉ s := by
  induction s with
  | nil => simp [strrchr]
  | cons a s ih =>
      rw [strrchr, Option.or_eq_none_iff, ih, List.mem_cons, not_or, and_comm]
      simp [eq_comm]

theorem strchr_eq_none {s : List UInt8} {c : UInt8} : strchr s c = none ↔ c ∉ s := by
  rw [strchr, firstSuffix_eq_none_iff]
  constructor
  · intro h hc
    obtain ⟨a, b, rfl⟩ := List.append_of_mem hc
    simpa using h (c :: b) (List.suffix_append a _)
  · rintro h t ⟨a, rfl⟩
    cases t with
    | nil => rfl
    | cons x t =>
        have : x ≠ c := by
          rintro rfl
          exact h (by simp)
        simpa using this

/-- What `strchr` finds starts with the character, and the character is not before it. -/
theorem strchr_eq_some {s t : List UInt8} {c : UInt8} (h : strchr s c = some t) :
    ∃ a b, t = c :: b ∧ s = a ++ t ∧ c ∉ a := by
  obtain ⟨⟨a, rfl⟩, hhead, hfirst⟩ := firstSuffix_eq_some_iff.mp h
  obtain ⟨b, rfl⟩ : ∃ b, t = c :: b := by
    cases t with
    | nil => simp at hhead
    | cons x b => exact ⟨b, by simpa using hhead⟩
  refine ⟨a, b, rfl, rfl, fun hc => ?_⟩
  obtain ⟨a₁, a₂, rfl⟩ := List.append_of_mem hc
  have hu : c :: a₂ ++ c :: b <:+ (a₁ ++ c :: a₂) ++ c :: b := by
    rw [List.append_assoc]
    exact List.suffix_append ..
  have hlong : (c :: b).length < (c :: a₂ ++ c :: b).length := by
    rw [List.length_append]
    exact Nat.lt_add_of_pos_left (Nat.succ_pos _)
  have := hfirst _ hu hlong
  simp at this

/-- **What `strcasestr` finds** is the longest suffix that starts with the needle. -/
theorem strcasestr_eq_some_iff {s needle t : List UInt8} :
    strcasestr s needle = some t ↔ t <:+ s ∧ needle.map tolower <+: t.map tolower ∧
      ∀ u, u <:+ s → t.length < u.length → ¬ needle.map tolower <+: u.map tolower := by
  simp only [strcasestr, firstSuffix_eq_some_iff, List.isPrefixOf_iff_prefix,
    ← Bool.not_eq_true]

theorem strcasestr_eq_none_iff {s needle : List UInt8} :
    strcasestr s needle = none ↔ ∀ u, u <:+ s → ¬ needle.map tolower <+: u.map tolower := by
  simp only [strcasestr, firstSuffix_eq_none_iff, List.isPrefixOf_iff_prefix,
    ← Bool.not_eq_true]

/-- What `strstr` finds. -/
theorem strstr_some {s needle t : List UInt8} (h : strstr s needle = some t) :
    t <:+ s ∧ needle <+: t := by
  obtain ⟨hsuf, hpre, -⟩ := firstSuffix_eq_some_iff.mp h
  exact ⟨hsuf, List.isPrefixOf_iff_prefix.mp hpre⟩

theorem strstr_eq_none {s needle : List UInt8} : strstr s needle = none ↔ ¬ needle <:+: s := by
  rw [strstr, firstSuffix_eq_none_iff, List.infix_iff_prefix_suffix]
  simp only [← Bool.not_eq_true, List.isPrefixOf_iff_prefix, not_exists, not_and]
  exact ⟨fun h t hpre hsuf => h t hsuf hpre, fun h t hsuf hpre => h t hpre hsuf⟩

section Stretches

/-! A needle whose characters share a property that the next character lacks. -/

variable {q : UInt8 → Bool} {needle s rest : List UInt8}

theorem prefix_stretch (hn : ∀ c ∈ needle, q c = true)
    (hrest : ∀ c ∈ rest.head?, q c = false) : needle <+: s ++ rest ↔ needle <+: s := by
  refine ⟨fun h => ?_, fun h => h.trans (List.prefix_append ..)⟩
  rcases List.prefix_or_prefix_of_prefix h (List.prefix_append s rest) with h' | ⟨m, rfl⟩
  · exact h'
  · have hm := (List.prefix_append_right_inj s).mp h
    cases m with
    | nil => rw [List.append_nil]
    | cons c m =>
        obtain ⟨r, rfl⟩ := hm
        have hno := hrest c rfl
        rw [hn c (by simp)] at hno
        cases hno

/-- Within a stretch the search does not see what follows; then it goes on behind it. -/
theorem strstr_stretch (hne : needle ≠ []) (hn : ∀ c ∈ needle, q c = true)
    (hrest : ∀ c ∈ rest.head?, q c = false) :
    strstr (s ++ rest) needle = ((strstr s needle).map (· ++ rest)).or (strstr rest needle) := by
  induction s with
  | nil =>
      have : strstr [] needle = none := strstr_eq_none.mpr fun h => hne (List.infix_nil.mp h)
      rw [this]
      rfl
  | cons c s ih =>
      have hpre : needle.isPrefixOf (c :: s ++ rest) = needle.isPrefixOf (c :: s) := by
        rw [Bool.eq_iff_iff, List.isPrefixOf_iff_prefix, List.isPrefixOf_iff_prefix,
          prefix_stretch hn hrest]
      show firstSuffix _ (c :: (s ++ rest)) = ((firstSuffix _ (c :: s)).map _).or _
      rw [firstSuffix, firstSuffix, ← List.cons_append, hpre]
      by_cases h : needle.isPrefixOf (c :: s) = true
      · rw [if_pos h, if_pos h]
        rfl
      · rw [if_neg h, if_neg h]
        exact ih

/-- A stretch in which the needle cannot start. -/
theorem strstr_skip (hne : needle ≠ []) (hn : ∀ c ∈ needle, q c = true)
    (hs : ∀ c ∈ s, q c = false) : strstr (s ++ rest) needle = strstr rest needle := by
  induction s with
  | nil => rfl
  | cons c s ih =>
      have hpre : ¬ needle.isPrefixOf (c :: s ++ rest) = true := by
        rw [List.isPrefixOf_iff_prefix]
        cases needle with
        | nil => exact absurd rfl hne
        | cons x needle =>
            rw [List.cons_append, List.cons_prefix_cons]
            rintro ⟨rfl, -⟩
            have hx := hn x (List.mem_cons_self ..)
            rw [hs x (List.mem_cons_self ..)] at hx
            cases hx
      show firstSuffix _ (c :: (s ++ rest)) = _
      rw [firstSuffix, ← List.cons_append, if_neg hpre]
      exact ih fun x hx => hs x (List.mem_cons_of_mem _ hx)

end Stretches

/-! ## Comparing -/

/-- The order of two strings by at most `n` characters. -/
def strncmp (s t : List UInt8) (n : Nat) : Ordering := compare (s.take n) (t.take n)

def strncasecmp (s t : List UInt8) (n : Nat) : Ordering :=
  strncmp (s.map tolower) (t.map tolower) n

theorem strncmp_eq {s t : List UInt8} {n : Nat} :
    strncmp s t n = .eq ↔ s.take n = t.take n := Std.compare_eq_iff_eq

/-- Comparing by the whole length of a string: it starts the other one. -/
theorem strncasecmp_length {s t : List UInt8} :
    strncasecmp s t s.length = .eq ↔ s.map tolower <+: t.map tolower := by
  rw [strncasecmp, strncmp_eq, List.take_of_length_le (by rw [List.length_map]),
    List.prefix_iff_eq_take, List.length_map]

/-- Comparing by the whole length of the second string: it starts the first one. -/
theorem strncmp_length {s t : List UInt8} :
    strncmp s t t.length = .eq ↔ t <+: s := by
  rw [strncmp_eq, List.take_of_length_le (Nat.le_refl _), List.prefix_iff_eq_take, eq_comm]

/-- The order of the first `n` bytes of two objects, compared from the left; none when
    one object ends before they differ. -/
def memcmp : List UInt8 → List UInt8 → Nat → Option Ordering
  | _, _, 0 => some .eq
  | a :: s, b :: t, n + 1 => if a = b then memcmp s t n else some (compare a b)
  | _, _, _ + 1 => none

/-- A string compared, by its own length, with a string constant: the comparison ends at
    the NUL of the constant at the latest. -/
theorem memcmp_terminated {s t : List UInt8} (hs : 0 ∉ s) (rest : List UInt8) :
    ∃ o, memcmp (s ++ 0 :: rest) (t ++ [0]) s.length = some o ∧ (o = .eq ↔ s <+: t) := by
  induction s generalizing t with
  | nil => exact ⟨.eq, rfl, iff_of_true rfl List.nil_prefix⟩
  | cons a s ih =>
      have ha : a ≠ 0 := fun h => hs (h ▸ List.mem_cons_self ..)
      cases t with
      | nil =>
          refine ⟨compare a 0, if_neg ha, ?_⟩
          rw [Std.compare_eq_iff_eq]
          exact iff_of_false ha (by simp)
      | cons b t =>
          by_cases hab : a = b
          · subst hab
            obtain ⟨o, ho, hiff⟩ := @ih (t) (fun h => hs (List.mem_cons_of_mem _ h))
            refine ⟨o, ?_, ?_⟩
            · simpa [memcmp] using ho
            · rw [hiff, List.cons_prefix_cons]
              simp
          · refine ⟨compare a b, if_neg hab, ?_⟩
            rw [Std.compare_eq_iff_eq, List.cons_prefix_cons]
            exact iff_of_false hab (fun h => hab h.1)

/-! ## Tokens -/

section Tokens

variable {delim s : List UInt8}

/-- `strtok`: the token that starts at or after a place, and the place that is remembered
    for the next call, each of them possibly null. -/
def strtok (delim : List UInt8) : Option (List UInt8) → Option (List UInt8) × Option (List UInt8)
  | none => (none, none)
  | some s =>
    match s.dropWhile (· ∈ delim) with
    | [] => (none, none)
    | c :: t =>
      (some ((c :: t).takeWhile (· ∉ delim)),
        match (c :: t).dropWhile (· ∉ delim) with
        | [] => none
        | _ :: rest => some rest)

/-- The longest stretches without a delimiter, the empty ones left out. -/
def tokens (delim s : List UInt8) : List (List UInt8) :=
  (s.splitOnP (· ∈ delim)).filter (· ≠ [])

@[simp] theorem tokens_nil : tokens delim [] = [] := rfl

theorem tokens_cons_delim {c : UInt8} (h : c ∈ delim) : tokens delim (c :: s) = tokens delim s := by
  rw [tokens, List.splitOnP_cons_eq_if_modifyHead, if_pos (by simpa using h),
    List.filter_cons_of_neg (by simp), tokens]

theorem tokens_skip : tokens delim (s.dropWhile (· ∈ delim)) = tokens delim s := by
  induction s with
  | nil => rfl
  | cons c s ih =>
      by_cases hc : c ∈ delim
      · rw [List.dropWhile_cons_of_pos (by simpa using hc), ih, tokens_cons_delim hc]
      · rw [List.dropWhile_cons_of_neg (by simpa using hc)]

/-- A stretch without a delimiter that ends the string. -/
theorem tokens_last {t : List UInt8} (hne : t ≠ []) (ht : ∀ c ∈ t, c ∉ delim) :
    tokens delim t = [t] := by
  rw [tokens, List.splitOnP_eq_singleton (by simpa using ht),
    List.filter_cons_of_pos (by simpa using hne), List.filter_nil]

/-- A stretch without a delimiter, and a delimiter behind it. -/
theorem tokens_append {t : List UInt8} {c : UInt8} (hne : t ≠ []) (ht : ∀ c ∈ t, c ∉ delim)
    (hc : c ∈ delim) : tokens delim (t ++ c :: s) = t :: tokens delim s := by
  rw [tokens, List.splitOnP_append_cons_of_forall_mem (by simpa using ht) c (by simpa using hc),
    List.filter_cons_of_pos (by simpa using hne), tokens]

/-- **One call of `strtok`** takes the first token and remembers where the others are. -/
theorem strtok_tokens (s : List UInt8) :
    (strtok delim (some s)).1 = (tokens delim s).head? ∧
      ((strtok delim (some s)).2.elim [] (tokens delim)) = (tokens delim s).tail := by
  rw [← tokens_skip, strtok]
  cases hskip : s.dropWhile (· ∈ delim) with
  | nil => exact ⟨rfl, rfl⟩
  | cons c t =>
      have hc : c ∉ delim := by
        have := List.head?_dropWhile_not (· ∈ delim) s
        rw [hskip] at this
        simpa using this
      have hne : (c :: t).takeWhile (· ∉ delim) ≠ [] := by
        rw [List.takeWhile_cons_of_pos (by simpa using hc)]
        exact List.cons_ne_nil _ _
      have hno : ∀ d ∈ (c :: t).takeWhile (· ∉ delim), d ∉ delim := by
        intro d hd
        simpa using List.mem_takeWhile_imp hd
      have hsplit := List.takeWhile_append_dropWhile (p := (· ∉ delim)) (l := c :: t)
      dsimp only
      cases hrest : (c :: t).dropWhile (· ∉ delim) with
      | nil =>
          rw [hrest, List.append_nil] at hsplit
          rw [hsplit] at hne hno ⊢
          rw [tokens_last hne hno]
          exact ⟨rfl, rfl⟩
      | cons d rest =>
          have hd : d ∈ delim := by
            have := List.head?_dropWhile_not (· ∉ delim) (c :: t)
            rw [hrest] at this
            simpa using this
          rw [hrest] at hsplit
          rw [show tokens delim (c :: t) = _ from hsplit ▸ tokens_append hne hno hd]
          exact ⟨rfl, rfl⟩

theorem strtok_first (s : List UInt8) :
    (strtok delim (some s)).1 = (tokens delim s)[0]? := by
  rw [(strtok_tokens s).1, List.head?_eq_getElem?]

/-- The second call goes on where the first one stopped. -/
theorem strtok_second (s : List UInt8) :
    (strtok delim (strtok delim (some s)).2).1 = (tokens delim s)[1]? := by
  have hrest : (strtok delim (some s)).2.elim [] (tokens delim) = _ := (strtok_tokens s).2
  cases hr : (strtok delim (some s)).2 with
  | none =>
      rw [hr] at hrest
      have : tokens delim s = (tokens delim s).head?.toList := by
        cases htok : tokens delim s with
        | nil => rfl
        | cons t ts =>
            rw [htok] at hrest
            rw [show ts = [] from hrest.symm]
            rfl
      rw [this]
      cases (tokens delim s).head? <;> rfl
  | some rest =>
      rw [hr] at hrest
      rw [strtok_first, show tokens delim rest = (tokens delim s).tail from hrest,
        List.getElem?_tail]

end Tokens

end CString
