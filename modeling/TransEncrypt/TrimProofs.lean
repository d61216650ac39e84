import TransEncrypt.CStringProofs

/-! # Removing white space in place — `trim`

    `init/util.c` and `ports/util.c` hold the same function: it reads a string with one
    index and writes it, compacted, with another one, and asks for `strlen` of the
    buffer it is overwriting before every turn.

    * `turn_inv`: a turn keeps the compacted part, the untouched part and the
      terminator in their places, so the bound of the loop never moves;
    * `trim_eq`: the bytes of the buffer afterwards;
    * `trim_filters`: `trim` terminates, is a filter, stays within the string and changes
      nothing the second time. -/

namespace TeTrim

open CString

/-! ## The loop -/

/-- The buffer and the two indices. -/
structure Loop where
  str : List UInt8
  i : Nat
  j : Nat
  deriving DecidableEq, Repr

/-- Where a turn leads: to the next one, behind the loop, or outside the buffer. -/
inductive Turn where
  | next (l : Loop)
  | leave
  | outside
  deriving DecidableEq, Repr

/-- One turn of the loop, the bound included. -/
def turn (l : Loop) : Turn :=
  match strlen l.str with
  | none => .outside
  | some n =>
    if l.i < n then
      match l.str[l.i]? with
      | none => .outside
      | some c =>
        if isspace c then .next { l with i := l.i + 1 }
        else if l.j < l.str.length then
          .next { str := l.str.set l.j c, i := l.i + 1, j := l.j + 1 }
        else .outside
    else .leave

/-- At most `fuel` turns, and the terminator; none when the loop goes on after that or an
    access is outside the buffer. -/
def run : Nat → Loop → Option (List UInt8)
  | 0, _ => none
  | fuel + 1, l =>
    match turn l with
    | .next l' => run fuel l'
    | .leave => if l.j < l.str.length then some (l.str.set l.j 0) else none
    | .outside => none

/-- `trim`: the buffer afterwards. -/
def trim (str : List UInt8) : Option (List UInt8) := run (str.length + 1) ⟨str, 0, 0⟩

/-! ## The invariant -/

/-- The characters that are not white space. -/
def keep (s : List UInt8) : List UInt8 := s.filter (fun c => !isspace c)

theorem keep_append (s t : List UInt8) : keep (s ++ t) = keep s ++ keep t :=
  List.filter_append ..

theorem keep_length_le (s : List UInt8) : (keep s).length ≤ s.length := List.length_filter_le ..

theorem nul_not_mem_keep {s : List UInt8} (h : 0 ∉ s) : 0 ∉ keep s :=
  fun h0 => h (List.mem_of_mem_filter h0)

@[simp] theorem keep_keep (s : List UInt8) : keep (keep s) = keep s := by
  rw [keep, keep, List.filter_filter]
  simp

/-- The loop over the string `s`, followed by its terminator and `rest`: the first `i`
    characters are compacted to the front and nothing else is written yet. -/
structure Inv (s rest : List UInt8) (l : Loop) : Prop where
  i_le : l.i ≤ s.length
  j_eq : l.j = (keep (s.take l.i)).length
  str_eq : l.str = keep (s.take l.i) ++ (s ++ 0 :: rest).drop l.j

namespace Inv

variable {s rest : List UInt8} {l : Loop}

theorem init (s rest : List UInt8) : Inv s rest ⟨s ++ 0 :: rest, 0, 0⟩ :=
  ⟨Nat.zero_le _, rfl, rfl⟩

/-- The writing index never overtakes the reading index. -/
theorem j_le (h : Inv s rest l) : l.j ≤ l.i := by
  have hle := keep_length_le (s.take l.i)
  rw [← h.j_eq, List.length_take] at hle
  omega

/-- The buffer is a string of the old length, the terminator and `rest`. -/
theorem shape (h : Inv s rest l) :
    l.str = (keep (s.take l.i) ++ s.drop l.j) ++ 0 :: rest := by
  have hj := h.j_le
  have hi := h.i_le
  rw [h.str_eq, List.drop_append_of_le_length (by omega), List.append_assoc]

theorem shape_length (h : Inv s rest l) :
    (keep (s.take l.i) ++ s.drop l.j).length = s.length := by
  have hj := h.j_le
  have hi := h.i_le
  rw [List.length_append, ← h.j_eq, List.length_drop]
  omega

theorem length (h : Inv s rest l) : l.str.length = s.length + 1 + rest.length := by
  rw [h.shape, List.length_append, h.shape_length, List.length_cons]
  omega

/-- **The bound stays**: every turn finds the length of the original string. -/
theorem strlen (h : Inv s rest l) (hs : 0 ∉ s) : CString.strlen l.str = some s.length := by
  have hno : 0 ∉ keep (s.take l.i) ++ s.drop l.j := by
    rw [List.mem_append, not_or]
    exact ⟨nul_not_mem_keep fun h0 => hs (List.mem_of_mem_take h0),
      fun h0 => hs (List.mem_of_mem_drop h0)⟩
  rw [h.shape, strlen_terminated hno, h.shape_length]

/-- The character that is read is still the original one. -/
theorem read (h : Inv s rest l) (hi : l.i < s.length) : l.str[l.i]? = some s[l.i] := by
  have hj := h.j_le
  rw [h.str_eq, List.getElem?_append_right (by rw [← h.j_eq]; exact hj), ← h.j_eq,
    List.getElem?_drop, Nat.add_sub_cancel' hj, List.getElem?_append_left hi,
    List.getElem?_eq_getElem hi]

end Inv

section Run

variable {s rest : List UInt8} {l : Loop}

/-- **One turn** keeps the invariant and moves the reading index on. -/
theorem turn_inv (h : Inv s rest l) (hs : 0 ∉ s) (hi : l.i < s.length) :
    ∃ l', turn l = .next l' ∧ l'.i = l.i + 1 ∧ Inv s rest l' := by
  have hj := h.j_le
  have hlen := h.length
  have htake : s.take (l.i + 1) = s.take l.i ++ [s[l.i]] := by
    rw [List.take_add_one, List.getElem?_eq_getElem hi]
    rfl
  rw [turn, h.strlen hs]
  simp only [if_pos hi, h.read hi]
  by_cases hsp : isspace s[l.i] = true
  · -- the character is left out
    have hkeep : keep (s.take (l.i + 1)) = keep (s.take l.i) := by
      rw [htake, keep_append, show keep [s[l.i]] = [] by simp [keep, hsp], List.append_nil]
    exact ⟨{ l with i := l.i + 1 }, if_pos hsp, rfl, hi, hkeep ▸ h.j_eq, hkeep ▸ h.str_eq⟩
  · -- it is stored over a byte that has been read already
    have hkeep : keep (s.take (l.i + 1)) = keep (s.take l.i) ++ [s[l.i]] := by
      rw [htake, keep_append, show keep [s[l.i]] = [s[l.i]] by simp [keep, hsp]]
    refine ⟨{ str := l.str.set l.j s[l.i], i := l.i + 1, j := l.j + 1 }, ?_, rfl, hi, ?_, ?_⟩
    · rw [if_neg hsp, if_pos (by omega)]
    · show l.j + 1 = (keep (s.take (l.i + 1))).length
      rw [hkeep, List.length_append, ← h.j_eq]
      rfl
    · show l.str.set l.j s[l.i] = keep (s.take (l.i + 1)) ++ (s ++ 0 :: rest).drop (l.j + 1)
      have hlt : l.j < (s ++ 0 :: rest).length := by
        rw [List.length_append]
        omega
      rw [h.str_eq, List.set_append_right _ _ (by rw [← h.j_eq]), ← h.j_eq, Nat.sub_self,
        List.drop_eq_getElem_cons hlt, List.set_cons_zero, hkeep, List.append_assoc]
      rfl

/-- **The whole loop**, from any turn on. -/
theorem run_inv (hs : 0 ∉ s) : ∀ (fuel : Nat) {l : Loop}, Inv s rest l →
    s.length - l.i < fuel →
    run fuel l = some (keep s ++ 0 :: (s ++ 0 :: rest).drop ((keep s).length + 1)) := by
  intro fuel
  induction fuel with
  | zero => intro l _ hf; exact absurd hf (Nat.not_lt_zero _)
  | succ fuel ih =>
      intro l h hf
      rw [run]
      rcases Nat.lt_or_eq_of_le h.i_le with hi | hi
      · obtain ⟨l', hturn, hi', h'⟩ := turn_inv h hs hi
        rw [hturn]
        exact ih h' (by omega)
      · have hkeep : keep (s.take l.i) = keep s := by rw [hi, List.take_length]
        have hj : l.j = (keep s).length := hkeep ▸ h.j_eq
        have hlen := h.length
        have hle := keep_length_le s
        have hlt : l.j < (s ++ 0 :: rest).length := by
          rw [List.length_append, List.length_cons]
          omega
        rw [turn, h.strlen hs]
        simp only [if_neg (Nat.not_lt_of_le (Nat.le_of_eq hi.symm))]
        rw [if_pos (by omega), h.str_eq, List.set_append_right _ _ (by rw [← h.j_eq]), ← h.j_eq,
          Nat.sub_self, List.drop_eq_getElem_cons hlt, List.set_cons_zero, hkeep, hj]

end Run

/-! ## The result -/

/-- What `trim` leaves of a string and its terminator: the characters that are kept, a
    terminator, and the old bytes behind it. -/
def compacted (s : List UInt8) : List UInt8 :=
  keep s ++ 0 :: (s ++ [0]).drop ((keep s).length + 1)

theorem compacted_length (s : List UInt8) : (compacted s).length = s.length + 1 := by
  have hle := keep_length_le s
  rw [compacted, List.length_append, List.length_cons, List.length_drop, List.length_append,
    List.length_singleton]
  omega

/-- The buffer after `trim`. -/
theorem trim_eq {s : List UInt8} (hs : 0 ∉ s) (rest : List UInt8) :
    trim (s ++ 0 :: rest) = some (compacted s ++ rest) := by
  have hle := keep_length_le s
  have hfuel : s.length - 0 < (s ++ 0 :: rest).length + 1 := by
    rw [List.length_append]
    omega
  rw [trim, run_inv hs _ (.init s rest) hfuel, List.append_cons s 0 rest,
    List.drop_append_of_le_length (by rw [List.length_append]; exact Nat.succ_le_succ hle),
    compacted, List.append_assoc]
  rfl

/-- The string after `trim`. -/
theorem trim_cstr {mem : List UInt8} (h : 0 ∈ mem) :
    ∃ rest, trim mem = some (keep (cstr mem) ++ 0 :: rest) := by
  obtain ⟨s, rest, hs, rfl⟩ := exists_terminated h
  rw [cstr_terminated hs, trim_eq hs, compacted, List.append_assoc]
  exact ⟨_, rfl⟩

/-- **`trim` is a filter**: on every memory that holds a terminated string it ends and leaves
    a terminated string, the one before without its white space.  It needs no byte behind the
    terminator, changes none there, and a second `trim` changes nothing. -/
theorem trim_filters (mem : List UInt8) (h : 0 ∈ mem) :
    ∃ out, trim mem = some out ∧
      0 ∈ out ∧ cstr out = (cstr mem).filter (fun c => !isspace c) ∧
      out.length = mem.length ∧
      trim (mem.take ((cstr mem).length + 1)) = some (out.take ((cstr mem).length + 1)) ∧
      out.drop ((cstr mem).length + 1) = mem.drop ((cstr mem).length + 1) ∧
      trim out = some out := by
  obtain ⟨s, rest, hs, rfl⟩ := exists_terminated h
  have hk := nul_not_mem_keep hs
  have hlen := compacted_length s
  have hlen' : (s ++ [0]).length = s.length + 1 := List.length_append
  refine ⟨compacted s ++ rest, trim_eq hs rest, ?_, ?_, ?_, ?_, ?_, ?_⟩
  · simp [compacted]
  · rw [compacted, List.append_assoc, List.cons_append, cstr_terminated hk, cstr_terminated hs]
    rfl
  · rw [List.append_cons, List.length_append, List.length_append, hlen, hlen']
  · rw [cstr_terminated hs, List.take_left' hlen, List.append_cons, List.take_left' hlen']
    exact (trim_eq hs []).trans (by rw [List.append_nil])
  · rw [cstr_terminated hs, List.drop_left' hlen, List.append_cons, List.drop_left' hlen']
  · -- the string is its own compacted form
    have hstr : compacted s ++ rest =
        keep s ++ 0 :: ((s ++ [0]).drop ((keep s).length + 1) ++ rest) := by
      rw [compacted, List.append_assoc, List.cons_append]
    have hself : compacted (keep s) = keep s ++ [0] := by
      rw [compacted, keep_keep, List.drop_of_length_le (by simp)]
    rw [hstr, trim_eq hk, hself, ← List.append_cons]

/-- A string of blanks, and bytes behind the terminator. -/
theorem trim_filters_blanks :
    ∃ out, trim [0x20, 0x09, 0, 0x20] = some out ∧ cstr out = [] ∧ trim out = some out := by
  obtain ⟨out, hout, -, hstr, -, -, -, hagain⟩ := trim_filters [0x20, 0x09, 0, 0x20] (by decide)
  exact ⟨out, hout, hstr.trans (by decide), hagain⟩

example : trim [0x20, 0x61, 0x0a, 0x62, 0, 0x20] = some [0x61, 0x62, 0, 0x62, 0, 0x20] := by decide

end TeTrim
