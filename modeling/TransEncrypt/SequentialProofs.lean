import Mathlib.Data.List.Induction
import TransEncrypt.SizeProofs
import TransEncrypt.WriteProofs

/-! # Writing a new file from its start to its end

    A file is created through the hooked `open` and written with hooked writes only.
    Each write fetches the pending bytes before its cursor through the path in the table,
    which a name of 1024 bytes or more does not fit: what is recorded runs on into the
    header of the entry, and is the name of another file, or of none.

    * `write_atEnd`: one write puts what it fetched and the data behind the whole blocks;
    * `filled_iff`: all of it is right exactly when every write fetches what is pending;
    * `sequential_writes`: so is the file, the size it shows and what a new descriptor
      reads, whatever the pieces it was written in. -/

namespace TeSequential

open Posix Overlay TeHeader Hoare TeProgram TeDetector Plain TeRead TeStored TeTorn TeWrite TeOpen
open TeSize

/-! ## What the recorded path shows -/

/-- The bytes from the block boundary up to the offset `off`, in the file that `path`
    denotes; zeros where there are none. -/
def shown (fs : FileStore) (path : Path) (off : Nat) : List UInt8 :=
  prefixOf ((fs.content path).getD []) off

theorem front_fetched {k : Kernel} (hc : k.host.Calm) (path : Path) (off : Nat) :
    front (fetched k path off) off = shown k.files path off := by
  rw [shown]
  cases hname : k.files.names path with
  | none =>
      have hnothing : fetched k path off = [] := by
        rw [fetched, if_neg (by rw [Kernel.answer_fails hc]; decide), hname]
      rw [(FileStore.content_eq_none _).mpr hname, hnothing]
      show front [] off = prefixOf [] off
      rw [front, prefixOf, slice_past (Nat.zero_le _)]
  | some j =>
      rw [FileStore.content_of_names _ hname, fetched_named hc hname]
      rfl

/-- The file itself shows its pending bytes. -/
theorem prefixOf_pending (aes : AES) {H : List UInt8} (hH : H.length = FILE_HEADER_POLL_SIZE)
    (P : List UInt8) :
    prefixOf (H ++ stored aes P) (FILE_HEADER_POLL_SIZE + P.length) = pending P := by
  have hslice : slice (H ++ stored aes P) ((FILE_HEADER_POLL_SIZE + P.length) / 16 * 16)
      (P.length % 16) = pending P := by
    rw [stored_pending, ← List.append_assoc, header_back aes hH, slice_append_left,
      slice_all (Nat.le_of_eq (pending_length P))]
  rw [prefixOf, header_mod, hslice, pending_length, Nat.sub_self]
  exact List.append_nil _

/-- Further on in the same block more of it is shown. -/
theorem prefixOf_further (l : List UInt8) (p m : Nat) (h : p % 16 + m < 16) :
    (prefixOf l (p + m)).take (p % 16) = prefixOf l p := by
  have hdiv : (p + m) / 16 = p / 16 := by omega
  have hmod : (p + m) % 16 = p % 16 + m := by omega
  rw [prefixOf, prefixOf, hdiv, hmod]
  apply List.ext_getElem?
  intro i
  simp only [slice, zeroed, List.getElem?_take, List.getElem?_append, List.length_take,
    List.length_drop, List.getElem?_replicate, List.getElem?_drop]
  grind

/-! ## What a run of writes comes to -/

/-- The bytes behind the header, after `b` has been written behind `D` with the prefix `f`. -/
def laid (aes : AES) (f D b : List UInt8) : List UInt8 :=
  if b = [] then D else D.take (D.length / 16 * 16) ++ stored aes (f ++ b)

/-- And after the buffers `bs`, where `f n` is what a write behind `n` bytes fetches. -/
def filled (aes : AES) (f : Nat → List UInt8) (bs : List (List UInt8)) : List UInt8 :=
  bs.foldl (fun D b => laid aes (f D.length) D b) []

/-- Every write of at least one byte fetches the pending bytes of what was written. -/
def Feeds (f : Nat → List UInt8) (bs : List (List UInt8)) : Prop :=
  ∀ bs₁ b bs₂, bs = bs₁ ++ b :: bs₂ → b ≠ [] → f bs₁.flatten.length = pending bs₁.flatten

theorem feeds_concat (f : Nat → List UInt8) (bs : List (List UInt8)) (b : List UInt8) :
    Feeds f (bs ++ [b]) ↔
      Feeds f bs ∧ (b ≠ [] → f bs.flatten.length = pending bs.flatten) := by
  constructor
  · intro h
    refine ⟨fun bs₁ b' bs₂ heq => h bs₁ b' (bs₂ ++ [b]) ?_, h bs b [] rfl⟩
    rw [heq, List.append_assoc]
    rfl
  · rintro ⟨h, hlast⟩ bs₁ b' bs₂ heq
    rcases List.eq_nil_or_concat bs₂ with rfl | ⟨bs₃, b₃, rfl⟩
    · obtain ⟨rfl, hb⟩ := List.append_inj' heq rfl
      obtain rfl : b = b' := (List.cons.inj hb).1
      exact hlast
    · rw [List.concat_eq_append, ← List.cons_append, ← List.append_assoc] at heq
      exact h bs₁ b' bs₃ (List.append_inj' heq rfl).1

section Filled

variable {aes : AES} {f : Nat → List UInt8}

theorem laid_stored {P b : List UInt8} (h : b ≠ [] → f P.length = pending P) :
    laid aes (f P.length) (stored aes P) b = stored aes (P ++ b) := by
  rw [laid]
  split
  · next hb => rw [hb, List.append_nil]
  · next hb =>
      rw [h hb, stored_length, stored_take, stored_added aes P b]
      rfl

theorem filled_concat (bs : List (List UInt8)) (b : List UInt8) :
    filled aes f (bs ++ [b]) = laid aes (f (filled aes f bs).length) (filled aes f bs) b :=
  List.foldl_concat ..

theorem filled_feeds {bs : List (List UInt8)} (h : Feeds f bs) :
    filled aes f bs = stored aes bs.flatten := by
  induction bs using List.reverseRecOn with
  | nil => exact (stored_short aes (P := []) (by decide)).symm
  | append_singleton bs b ih =>
      obtain ⟨hbs, hb⟩ := (feeds_concat f bs b).mp h
      rw [filled_concat, ih hbs, stored_length, laid_stored hb, List.flatten_append]
      congr 1
      exact congrArg (bs.flatten ++ ·) (List.append_nil b).symm

/-- The blocks that are right after a write: those before it, and those it completes. -/
theorem laid_whole {D P F b : List UInt8} (hb : b ≠ []) (hD : D.length = P.length)
    (hF : F.length = P.length % 16)
    (h : (laid aes F D b).take ((P ++ b).length / 16 * 16) = stored aes (whole (P ++ b))) :
    D.take (P.length / 16 * 16) = stored aes (whole P) ∧
      whole (F ++ b) = whole (pending P ++ b) := by
  let q := P.length / 16 * 16
  let r := (P.length % 16 + b.length) / 16 * 16
  have hq : (P ++ b).length / 16 * 16 = q + r := by
    rw [List.length_append]
    omega
  have hlow : (D.take q).length = q := by
    rw [List.length_take, hD]
    omega
  have hlow' : (stored aes (whole P)).length = q := by
    rw [stored_length, whole_length]
  have hlen : (F ++ b).length = P.length % 16 + b.length := by
    rw [List.length_append, hF]
  have hlen' : (pending P ++ b).length = P.length % 16 + b.length := by
    rw [List.length_append, pending_length]
  rw [laid, if_neg hb, hD, whole, ← stored_take, stored_added aes P b, hq] at h
  have hcut : ∀ A B : List UInt8, A.length = q → (A ++ B).take (q + r) = A ++ B.take r := by
    intro A B hA
    rw [← hA, List.take_length_add_append]
  rw [hcut _ _ hlow, hcut _ _ hlow', stored_take, stored_take] at h
  obtain ⟨hbefore, hblocks⟩ := List.append_inj h (hlow.trans hlow'.symm)
  refine ⟨hbefore, ?_⟩
  rw [whole, whole, hlen, hlen']
  exact stored_injective aes hblocks

/-- A block that the write completes tells what was fetched for it, and what is left pending
    tells it too. -/
theorem laid_fetched {D P F b : List UInt8} (hb : b ≠ []) (hD : D.length = P.length)
    (hF : F.length = P.length % 16) (hblocks : whole (F ++ b) = whole (pending P ++ b))
    (hrest : P.length % 16 + b.length < 16 → (laid aes F D b).drop ((P ++ b).length / 16 * 16)
      = pending (P ++ b) ∨ F = (pending (P ++ b)).take (P.length % 16)) : F = pending P := by
  have hP : (pending P).length = P.length % 16 := pending_length P
  have hlow : (D.take (P.length / 16 * 16)).length = P.length / 16 * 16 := by
    rw [List.length_take, hD]
    omega
  by_cases hr : P.length % 16 + b.length < 16
  · have hq : (P ++ b).length / 16 * 16 = P.length / 16 * 16 := by
      rw [List.length_append]
      omega
    have hpend : pending (P ++ b) = pending P ++ b := by
      rw [pending, hq, List.drop_append_of_le_length (by omega)]
      rfl
    have hrest := hrest hr
    rw [laid, if_neg hb, hD, hq, hpend, List.drop_append, hlow, Nat.sub_self, List.drop_zero,
      List.drop_eq_nil_of_le (by rw [hlow]), List.nil_append,
      stored_short aes (by rw [List.length_append, hF]; exact hr)] at hrest
    rcases hrest with h | h
    · exact List.append_cancel_right h
    · rw [h, ← hP, List.take_left]
  · have hcut := congrArg (List.take (P.length % 16)) hblocks
    rw [whole, whole, List.take_take, List.take_take, List.length_append,
      List.length_append, hF, hP,
      Nat.min_eq_left (by omega)] at hcut
    calc F = (F ++ b).take (P.length % 16) := by rw [← hF, List.take_left]
      _ = (pending P ++ b).take (P.length % 16) := hcut
      _ = pending P := by rw [← hP, List.take_left]

variable (hf : ∃ l, ∀ n, f n = prefixOf l (FILE_HEADER_POLL_SIZE + n))
include hf

theorem fetch_length (n : Nat) : (f n).length = n % 16 := by
  obtain ⟨l, hl⟩ := hf
  rw [hl, prefixOf_length, header_mod]

theorem fetch_further {n m : Nat} (h : n % 16 + m < 16) : (f (n + m)).take (n % 16) = f n := by
  obtain ⟨l, hl⟩ := hf
  have hmod : (FILE_HEADER_POLL_SIZE + n) % 16 = n % 16 := header_mod n
  rw [hl, hl, ← Nat.add_assoc, ← prefixOf_further l (FILE_HEADER_POLL_SIZE + n) m
    (by rw [hmod]; exact h), hmod]

theorem laid_length (D b : List UInt8) :
    (laid aes (f D.length) D b).length = D.length + b.length := by
  rw [laid]
  split
  · next hb => rw [hb, List.length_nil, Nat.add_zero]
  · rw [List.length_append, List.length_take, stored_length, List.length_append, fetch_length hf]
    omega

theorem filled_length (bs : List (List UInt8)) : (filled aes f bs).length = bs.flatten.length := by
  induction bs using List.reverseRecOn with
  | nil => rfl
  | append_singleton bs b ih =>
      rw [filled_concat, laid_length hf, ih, List.flatten_append, List.length_append]
      congr 1
      exact (congrArg List.length (List.append_nil b)).symm

/-- The blocks are right only when each of them was given what it needs: those that are
    complete show it themselves, and the last one in its bytes or in the next fetch. -/
theorem feeds_of_filled {bs : List (List UInt8)} :
    (filled aes f bs).take (bs.flatten.length / 16 * 16) = stored aes (whole bs.flatten) →
    (filled aes f bs).drop (bs.flatten.length / 16 * 16) = pending bs.flatten ∨
      f bs.flatten.length = pending bs.flatten → Feeds f bs := by
  induction bs using List.reverseRecOn with
  | nil =>
      intro _ _ bs₁ b bs₂ heq
      cases (List.append_eq_nil_iff.mp heq.symm).2
  | append_singleton bs b ih =>
      have hflat : (bs ++ [b]).flatten = bs.flatten ++ b := by
        rw [List.flatten_append]
        exact congrArg (bs.flatten ++ ·) (List.append_nil b)
      have hD : (filled aes f bs).length = bs.flatten.length := filled_length hf bs
      rw [hflat, filled_concat, hD]
      intro htake hrest
      by_cases hb : b = []
      · subst hb
        rw [laid, if_pos rfl, List.append_nil] at htake hrest
        exact (feeds_concat f bs []).mpr ⟨ih htake hrest, fun h => absurd rfl h⟩
      have hF : (f bs.flatten.length).length = bs.flatten.length % 16 := fetch_length hf _
      obtain ⟨hbefore, hblocks⟩ := laid_whole hb hD hF htake
      have hfetch : f bs.flatten.length = pending bs.flatten := by
        refine @laid_fetched aes _ _ _ _ hb hD hF hblocks fun hr => hrest.imp_right fun h => ?_
        rw [← h, List.length_append, fetch_further hf hr]
      exact (feeds_concat f bs b).mpr ⟨ih hbefore (.inr hfetch), fun _ => hfetch⟩

/-- **The bytes are right** exactly when every write fetches what is pending. -/
theorem filled_iff (bs : List (List UInt8)) :
    filled aes f bs = stored aes bs.flatten ↔ Feeds f bs := by
  refine ⟨fun h => @feeds_of_filled aes f hf bs ?_ (.inl ?_), filled_feeds⟩
  · rw [h, stored_take]
    rfl
  · rw [h, stored_pending, List.drop_append, stored_length, whole_length, Nat.sub_self,
      List.drop_zero, List.drop_eq_nil_of_le (by rw [stored_length, whole_length]),
      List.nil_append]

end Filled

/-- In place, at the end of the file: prefix and data replace the block that is pending. -/
theorem torn_laid (aes : AES) {H D r b : List UInt8} (hH : H.length = FILE_HEADER_POLL_SIZE)
    (hb : b ≠ []) (hr : r.length ≤ (FILE_HEADER_POLL_SIZE + D.length) % 16) :
    let off := FILE_HEADER_POLL_SIZE + D.length
    torn aes false (H ++ D) r off b (off % 16) b.length = H ++ laid aes (front r off) D b := by
  intro off
  have hr : r.length ≤ off % 16 := hr
  have hback : off / 16 * 16 = H.length + D.length / 16 * 16 := by
    rw [hH]
    show (4096 + D.length) / 16 * 16 = 4096 + _
    omega
  have hlow : (D.take (D.length / 16 * 16)).length = D.length / 16 * 16 := by
    rw [List.length_take]
    omega
  have hcover : (D.drop (D.length / 16 * 16)).length ≤ (buffer aes r off b).length := by
    have hmod : off % 16 = D.length % 16 := header_mod _
    rw [buffer_length aes hr b, List.length_drop]
    omega
  have hover := overlay_append_left 0 (D.take (D.length / 16 * 16)) (D.drop (D.length / 16 * 16)) 0
    (buffer aes r off b)
  rw [hlow, List.take_append_drop, Nat.add_zero, overlay_all 0 hcover] at hover
  rw [torn_in_place aes _ hr, hback, overlay_append_left, hover, laid, if_neg hb]
  rfl

/-! ## One write after the other -/

/-- The descriptor is tracked and open for writing in place on the file `i`, which is `H`
    and the bytes `D`, and the cursor is at its end. -/
structure AtEnd (H : List UInt8) (w : World) (fd : Int) (id i : Nat) (flags : Flags)
    (fi : FileInfo) (D : List UInt8) : Prop where
  calm : w.kern.host.Calm
  find : w.kern.find fd = some id
  desc : w.kern.desc id = { inode := i, pos := FILE_HEADER_POLL_SIZE + D.length, flags := flags }
  query : w.file_info_list.find? (fun e => e.file_descriptor = fd) = some fi
  data : w.kern.files.data i = H ++ D

/-- Writing to the file `i` leaves the names, the other files, the descriptors and the
    table. -/
structure Beside (w w' : World) (i : Nat) : Prop where
  names : w'.kern.files.names = w.kern.files.names
  data : ∀ j, j ≠ i → w'.kern.files.data j = w.kern.files.data j
  inUse : ∀ fd, w'.kern.InUse fd ↔ w.kern.InUse fd
  table : w'.file_info_list = w.file_info_list

theorem Beside.refl (w : World) (i : Nat) : Beside w w i :=
  ⟨rfl, fun _ _ => rfl, fun _ => .rfl, rfl⟩

theorem Beside.trans {w₁ w₂ w₃ : World} {i : Nat} (h : Beside w₁ w₂ i)
    (h' : Beside w₂ w₃ i) : Beside w₁ w₃ i :=
  ⟨h'.names.trans h.names, fun j hj => (h'.data j hj).trans (h.data j hj),
    fun fd => (h'.inUse fd).trans (h.inUse fd), h'.table.trans h.table⟩

/-- Another file shows what it showed. -/
theorem Beside.shown_other {w w' : World} {i : Nat} (h : Beside w w' i) {path : Path}
    (hne : w.kern.files.names path ≠ some i) (off : Nat) :
    shown w'.kern.files path off = shown w.kern.files path off := by
  have hsame : w'.kern.files.content path = w.kern.files.content path := by
    rw [FileStore.content, FileStore.content, h.names]
    cases hname : w.kern.files.names path with
    | none => rfl
    | some j => exact congrArg some (h.data j (fun hj => hne (hj ▸ hname)))
  rw [shown, shown, hsame]

section Writing

variable {dev : Device} {env : Env} {H : List UInt8} {w : World} {fd : Int} {id i : Nat}
  {flags : Flags} {fi : FileInfo} (henv : env.Active) (hH : H.length = FILE_HEADER_POLL_SIZE)
  (hacc : flags.acc.writable = true) (happ : flags.append = false)
include henv hH hacc happ

/-- **One write** at the end. -/
theorem write_atEnd {D : List UInt8} (h : AtEnd H w fd id i flags fi D) (b : List UInt8) :
    ∃ w', write dev env fd b w = .ok ((b.length : Int), w') ∧
      AtEnd H w' fd id i flags fi
        (laid dev.aes (shown w.kern.files fi.file_path (FILE_HEADER_POLL_SIZE + D.length)) D b) ∧
      Beside w w' i := by
  obtain ⟨hc, hf, hd, hq, hdata⟩ := h
  by_cases hb : b = []
  · subst hb
    refine ⟨{ w with kern := w.kern.tock 1 }, ?_, ⟨hc, hf, hd, hq, hdata⟩,
      ⟨rfl, fun _ _ => rfl, fun _ => .rfl, rfl⟩⟩
    have hwrite : linker_write fd [] w = .ok (0, { w with kern := w.kern.tock 1 }) := by
      apply linker_write_ok
      rw [Kernel.sysWrite_nil hc hf, hd, hacc]
      rfl
    rw [write, hooked_active henv, if_neg (by decide), hwrite]
    rfl
  · let off := FILE_HEADER_POLL_SIZE + D.length
    let r := fetched (w.kern.tock 2) fi.file_path off
    have hr : r.length ≤ off % 16 := fetched_length _ _ _
    have hfront : front r off = shown w.kern.files fi.file_path off :=
      front_fetched (k := w.kern.tock 2) hc fi.file_path off
    have hne : b.length ≠ 0 := fun h => hb (List.length_eq_zero_iff.mp h)
    obtain ⟨k', hrun, hwrote⟩ := write_whole dev henv hf (by rw [hd]) hc (by rw [hd]; exact hacc)
      hq hb
    rw [hd, happ, hdata, tornPos, if_neg hne, if_neg Bool.false_ne_true] at hwrote
    rw [torn_laid dev.aes hH hb hr, hfront] at hwrote
    have hfiles : k'.files = w.kern.files.store i (H ++ laid dev.aes
        (shown w.kern.files fi.file_path off) D b) := by
      rw [hwrote.files, hd]
    have hlen : (laid dev.aes (shown w.kern.files fi.file_path off) D b).length
        = D.length + b.length := by
      rw [laid, if_neg hb, List.length_append, List.length_take, stored_length, List.length_append,
        ← hfront, front_length hr, show off % 16 = D.length % 16 from header_mod _]
      omega
    refine ⟨{ w with kern := k' }, hrun, ⟨?_, (hwrote.find fd).trans hf, ?_, hq, ?_⟩, ?_, ?_,
      fun _ => hwrote.inUse, rfl⟩
    · show k'.host.Calm
      rw [hwrote.host]
      exact hc
    · show k'.desc id = _
      rw [hwrote.desc_self (w.kern.find_lt hf), hd, hlen, ← Nat.add_assoc]
    · show k'.files.data i = _
      rw [hfiles]
      exact FileStore.store_data_self ..
    · show k'.files.names = _
      rw [hfiles]
      rfl
    · intro j hj
      show k'.files.data j = _
      rw [hfiles]
      exact Function.update_of_ne hj _ _

/-- **Every sequence of writes**, when what is recorded denotes the file itself. -/
theorem write_all_named : ∀ (bs : List (List UInt8)) {w : World} {P : List UInt8},
    AtEnd H w fd id i flags fi (stored dev.aes P) → w.kern.files.names fi.file_path = some i →
    ∃ w', write_all dev env fd bs w = .ok (bs.map (fun b => (b.length : Int)), w') ∧
      AtEnd H w' fd id i flags fi (stored dev.aes (P ++ bs.flatten)) ∧ Beside w w' i := by
  intro bs
  induction bs with
  | nil =>
      intro w P h _
      refine ⟨w, rfl, ?_, .refl w i⟩
      rw [List.flatten_nil, List.append_nil]
      exact h
  | cons b bs ih =>
      intro w P h hname
      obtain ⟨w₁, hwrite, h₁, hb₁⟩ := write_atEnd henv hH hacc happ h b
      have hown :
        shown w.kern.files fi.file_path (FILE_HEADER_POLL_SIZE + P.length) = pending P := by
        rw [shown, FileStore.content_of_names _ hname, h.data]
        exact prefixOf_pending dev.aes hH P
      rw [stored_length, laid_stored (f := fun n =>
        shown w.kern.files fi.file_path (FILE_HEADER_POLL_SIZE + n)) (fun _ => hown)] at h₁
      obtain ⟨w₂, hrest, h₂, hb₂⟩ := ih h₁ (by rw [hb₁.names]; exact hname)
      refine ⟨w₂, ?_, ?_, hb₁.trans hb₂⟩
      · rw [write_all, bind_ok hwrite, bind_ok hrest]
        rfl
      · rw [List.flatten_cons, ← List.append_assoc]
        exact h₂

/-- And when it denotes another file, or none. -/
theorem write_all_other : ∀ (bs : List (List UInt8)) {w : World} {D : List UInt8},
    AtEnd H w fd id i flags fi D → w.kern.files.names fi.file_path ≠ some i →
    ∃ w', write_all dev env fd bs w = .ok (bs.map (fun b => (b.length : Int)), w') ∧
      AtEnd H w' fd id i flags fi (bs.foldl (fun D b => laid dev.aes
        (shown w.kern.files fi.file_path (FILE_HEADER_POLL_SIZE + D.length)) D b) D) ∧
      Beside w w' i := by
  intro bs
  induction bs with
  | nil => exact fun h _ => ⟨_, rfl, h, .refl _ i⟩
  | cons b bs ih =>
      intro w D h hname
      obtain ⟨w₁, hwrite, h₁, hb₁⟩ := write_atEnd henv hH hacc happ h b
      obtain ⟨w₂, hrest, h₂, hb₂⟩ := ih h₁ (by rw [hb₁.names]; exact hname)
      refine ⟨w₂, ?_, ?_, hb₁.trans hb₂⟩
      · rw [write_all, bind_ok hwrite, bind_ok hrest]
        rfl
      · simp only [hb₁.shown_other hname] at h₂
        exact h₂

end Writing

/-! ## What is seen afterwards -/

section Seen

variable {dev : Device} {env : Env} {H P : List UInt8} {w : World} {path : Path} {i : Nat}
  (henv : env.Active) (hc : w.kern.host.Calm) (h0 : w.kern.InUse 0) (hH : RightsHeader H)
  (hname : w.kern.files.names path = some i)
  (hdata : w.kern.files.data i = H ++ stored dev.aes P)
include henv hc h0 hH hname hdata

/-- The hooked size of a stored plain text. -/
theorem stat_stored : ∃ w', stat env path w = .ok (some ⟨true, P.length⟩, w') := by
  obtain ⟨k', hstat, -⟩ := stat_calm henv hc hname h0
  refine ⟨{ w with kern := k' }, ?_⟩
  have hless : lessHeader ⟨true, ((4096 + P.length : Nat) : Int)⟩ = ⟨true, P.length⟩ := by
    have hsub : ((4096 + P.length : Nat) : Int) - ((4096 : Nat) : Int) = P.length := by omega
    exact congrArg (Stat.mk true) hsub
  rw [hstat, hdata, typeOf_header hH.length, if_pos hH.rights, List.length_append, hH.length,
    stored_length]
  exact congrArg (fun st => Except.ok (some st, { w with kern := k' })) hless

/-- Reading it through a new descriptor, in any pieces. -/
theorem reread_stored (hsup : dev.is_support_file_type_by_path path ≠ 0) :
    ∃ rfd w', open_file dev env path { acc := .rdonly } w = .ok (rfd, w') ∧ 0 < rfd ∧
      ∀ ns, ∃ w₂, read_all dev env rfd ns w' =
        .ok ((PlainFile.reads ⟨P, 0⟩ ns).map (fun b => ((b.length : Int), b)), w₂) := by
  have hhead : HasHeader (w.kern.files.data i) := by
    rw [hdata]
    exact hasHeader_append hH.length hH.rights _
  obtain ⟨rfd, id, w', hopen, hpos, hnew, hkept, hfiles, -⟩ :=
    @open_encrypted_calm w hc path i dev env { acc := .rdonly } henv hsup h0 hname hhead rfl
  have hsame : w'.kern.files = w.kern.files := hfiles.same hname rfl
  have hdesc : w'.kern.desc id =
      { inode := i, pos := FILE_HEADER_POLL_SIZE, flags := { acc := .rdonly } } := hnew.desc
  have hshows : Shows dev H w' rfd id ⟨P, 0⟩ := by
    refine ⟨hnew.find, by rw [hdesc], by rw [hdesc]; rfl, ?_, .inl (by rw [hdesc]; rfl)⟩
    rw [hdesc, hsame]
    exact hdata
  refine ⟨rfd, w', hopen, hpos, fun ns => ?_⟩
  obtain ⟨w₂, hread, -⟩ := read_all_shows henv hH ns (by rw [hkept.host]; exact hc)
    (hkept.inUse h0) hshows
  exact ⟨w₂, hread⟩

end Seen

/-! ## From open to the last byte -/

/-- The path that a new file's entry records. -/
def recordedPath (dev : Device) (path : Path) : Path :=
  spilled path (entryHeader dev.get_process_name path)

/-- The recorded path is the path itself, or the name of a file that shows at every write
    what is pending. -/
def Recovers (dev : Device) (fs : FileStore) (path : Path) (bs : List (List UInt8)) : Prop :=
  recordedPath dev path = path ∨
    Feeds (fun n => shown fs (recordedPath dev path) (FILE_HEADER_POLL_SIZE + n)) bs

/-- A path that fits its place in the entry is recorded as it is. -/
theorem recovers_short (dev : Device) (fs : FileStore) {path : Path}
    (h : path.length < PATH_MAX) (bs : List (List UInt8)) : Recovers dev fs path bs :=
  .inl (spilled_short h _)

/-- What the application is promised about the buffers `bs`, written one after the other. -/
structure Readable (dev : Device) (env : Env) (path : Path) (bs : List (List UInt8)) (w : World) :
    Prop where
  content : w.kern.files.content path
    = some (entryHeader dev.get_process_name path ++ stored dev.aes bs.flatten)
  size : ∃ w', stat env path w = .ok (some ⟨true, bs.flatten.length⟩, w')
  reread : ∃ rfd w', open_file dev env path { acc := .rdonly } w = .ok (rfd, w') ∧ 0 < rfd ∧
    ∀ ns, ∃ w₂, read_all dev env rfd ns w' =
        .ok ((PlainFile.reads ⟨bs.flatten, 0⟩ ns).map (fun b => ((b.length : Int), b)), w₂) ∧
      (PlainFile.reads ⟨bs.flatten, 0⟩ ns).flatten = bs.flatten.take ns.sum

section Created

variable {dev : Device} {env : Env} {w w₁ : World} {path : Path} {flags : Flags} {fd : Int}
  (henv : env.Active) (hc : w.kern.host.Calm) (h0 : w.kern.InUse 0)
  (hsup : dev.is_support_file_type_by_path path ≠ 0)
  (hspecial : dev.is_support_special_file_type_by_path path ≠ 1)
  (hname : w.kern.files.names path = none) (hcr : flags.creat = true)
  (hacc : flags.acc.writable = true)
  (hopen : open_file dev env path flags w = .ok (fd, w₁))
  (honce : w₁.file_info_list.countP (fun e => e.file_descriptor = fd) = 1)
include henv hc h0 hsup hspecial hname hcr hacc hopen honce

/-- The new file holds its header, and the cursor stands behind it. -/
theorem created_atEnd : 0 < fd ∧ w₁.kern.InUse 0 ∧
    w₁.kern.files = (w.kern.files.create path).store w.kern.files.next
      (entryHeader dev.get_process_name path) ∧
    ∃ id, AtEnd (entryHeader dev.get_process_name path) w₁ fd id w.kern.files.next flags
      ⟨fd, recordedPath dev path, some w.kern.files.next⟩ [] := by
  obtain ⟨fd', id, w₁', hopen', hpos, hnew, hkept, hfiles, hlist⟩ :=
    open_new_calm hc henv hsup h0 hname hcr hspecial hacc
  obtain ⟨rfl, rfl⟩ := Prod.mk.inj (Except.ok.inj (hopen.symm.trans hopen'))
  -- the entry of the new descriptor is the one that is found
  have hfirst : w₁.file_info_list.find? (fun e => e.file_descriptor = fd)
      = some ⟨fd, recordedPath dev path, some w.kern.files.next⟩ := by
    rw [hlist] at honce ⊢
    exact query_append_once (e := ⟨fd, recordedPath dev path, some w.kern.files.next⟩) rfl honce
  refine ⟨hpos, hkept.inUse h0, hfiles, id, by rw [hkept.host]; exact hc, hnew.find, hnew.desc,
    hfirst, ?_⟩
  rw [hfiles, List.append_nil]
  exact FileStore.store_data_self ..

/-- What the writes leave when the recorded path is not the path. -/
theorem written_aside (happ : flags.append = false) (hne : recordedPath dev path ≠ path)
    (bs : List (List UInt8)) : ∃ w₂ id, write_all dev env fd bs w₁ =
        .ok (bs.map (fun b => (b.length : Int)), w₂) ∧
      AtEnd (entryHeader dev.get_process_name path) w₂ fd id w.kern.files.next flags
        ⟨fd, recordedPath dev path, some w.kern.files.next⟩ (filled dev.aes (fun n =>
          shown w.kern.files (recordedPath dev path) (FILE_HEADER_POLL_SIZE + n)) bs) ∧
      Beside w₁ w₂ w.kern.files.next := by
  obtain ⟨-, -, hfiles, id, hend⟩ :=
    created_atEnd henv hc h0 hsup hspecial hname hcr hacc hopen honce
  let p := recordedPath dev path
  have hnames : w₁.kern.files.names p = w.kern.files.names p := by
    rw [hfiles]
    exact Function.update_of_ne hne _ _
  have hother : ∀ j, w.kern.files.names p = some j → j ≠ w.kern.files.next := fun j hj =>
    Nat.ne_of_lt (w.kern.files.names_lt p j hj)
  have hcontent : w₁.kern.files.content p = w.kern.files.content p := by
    rw [FileStore.content, FileStore.content, hnames]
    cases hj : w.kern.files.names p with
    | none => rfl
    | some j =>
        rw [Option.map_some, hfiles]
        exact congrArg some ((Function.update_of_ne (hother j hj) _ _).trans
          (Function.update_of_ne (hother j hj) _ _))
  obtain ⟨w₂, hwrite, hend₂, hbeside⟩ := write_all_other henv (entryHeader_length _ _) hacc happ bs
    hend (by rw [hnames]; exact fun hj => hother _ hj rfl)
  have hshown : ∀ off, shown w₁.kern.files p off = shown w.kern.files p off := by
    intro off
    rw [shown, shown, hcontent]
  simp only [show ∀ off, shown w₁.kern.files (recordedPath dev path) off = _ from hshown] at hend₂
  exact ⟨w₂, id, hwrite, hend₂, hbeside⟩

end Created

/-- **Sequential writing.**  A file that does not exist is created for writing, and the
    buffers `bs` are written one after the other.  Each write returns its count.  The file
    is the header and the stored form of all bytes, its size is their number, and a new
    descriptor reads them in pieces of any length, exactly when the recorded path gives
    back the pending bytes. -/
theorem sequential_writes {dev : Device} {env : Env} {w w₁ : World} {path : Path}
    {flags : Flags} {fd : Int} (henv : env.Active) (hc : w.kern.host.Calm)
    (h0 : w.kern.InUse 0) (hsup : dev.is_support_file_type_by_path path ≠ 0)
    (hspecial : dev.is_support_special_file_type_by_path path ≠ 1)
    (hname : w.kern.files.names path = none) (hcr : flags.creat = true)
    (hacc : flags.acc.writable = true) (happ : flags.append = false)
    (hopen : open_file dev env path flags w = .ok (fd, w₁))
    (honce : w₁.file_info_list.countP (fun e => e.file_descriptor = fd) = 1)
    (bs : List (List UInt8)) :
    0 < fd ∧ ∃ w₂, write_all dev env fd bs w₁ =
        .ok (bs.map (fun b => (b.length : Int)), w₂) ∧
      (Readable dev env path bs w₂ ↔ Recovers dev w.kern.files path bs) := by
  obtain ⟨hpos, h0₁, hfiles, id, hend⟩ :=
    created_atEnd henv hc h0 hsup hspecial hname hcr hacc hopen honce
  let i := w.kern.files.next
  let H := entryHeader dev.get_process_name path
  let fi : FileInfo := ⟨fd, recordedPath dev path, some i⟩
  have hlen : H.length = FILE_HEADER_POLL_SIZE := entryHeader_length _ _
  have hH : RightsHeader H := ⟨hlen, entryHeader_rights _ _⟩
  have hname₁ : w₁.kern.files.names path = some i := by
    rw [hfiles]
    exact w.kern.files.create_names_self path
  -- once the bytes are right, size and text follow
  have hread : ∀ {w₂ : World} {id : Nat}, AtEnd H w₂ fd id i flags fi (stored dev.aes bs.flatten) →
      Beside w₁ w₂ i → Readable dev env path bs w₂ := by
    intro w₂ id h₂ hbeside
    have hname₂ : w₂.kern.files.names path = some i := by
      rw [hbeside.names]
      exact hname₁
    have h0₂ : w₂.kern.InUse 0 := (hbeside.inUse 0).mpr h0₁
    obtain ⟨rfd, w₃, hopen₃, hpos₃, hread⟩ :=
      reread_stored henv h₂.calm h0₂ hH hname₂ h₂.data hsup
    refine ⟨by rw [FileStore.content_of_names _ hname₂, h₂.data],
      stat_stored henv h₂.calm h0₂ hH hname₂ h₂.data, rfd, w₃, hopen₃, hpos₃, fun ns => ?_⟩
    obtain ⟨w₄, hrun⟩ := hread ns
    exact ⟨w₄, hrun, PlainFile.reads_flatten ns _⟩
  refine ⟨hpos, ?_⟩
  by_cases hown : recordedPath dev path = path
  · rw [← stored_short dev.aes (P := []) (by decide)] at hend
    obtain ⟨w₂, hwrite, hend₂, hbeside⟩ := write_all_named henv hH.length hacc happ bs hend
      (show w₁.kern.files.names (recordedPath dev path) = some i by rw [hown]; exact hname₁)
    rw [List.nil_append] at hend₂
    exact ⟨w₂, hwrite, iff_of_true (hread hend₂ hbeside) (.inl hown)⟩
  · obtain ⟨w₂, id₂, hwrite, hend₂, hbeside⟩ :=
      written_aside henv hc h0 hsup hspecial hname hcr hacc
      hopen honce happ hown bs
    let f : Nat → List UInt8 := fun n =>
      shown w.kern.files (recordedPath dev path) (FILE_HEADER_POLL_SIZE + n)
    have hiff : filled dev.aes f bs = stored dev.aes bs.flatten ↔ Feeds f bs :=
      filled_iff ⟨_, fun _ => rfl⟩ bs
    refine ⟨w₂, hwrite, ?_, ?_⟩
    · intro h
      have hcontent := h.content
      rw [FileStore.content_of_names _ ((congrFun hbeside.names path).trans hname₁),
        hend₂.data] at hcontent
      exact .inr (hiff.mp (List.append_cancel_left (Option.some.inj hcontent)))
    · intro h
      have hfeeds := h.resolve_left hown
      rw [hiff.mpr hfeeds] at hend₂
      exact hread hend₂ hbeside

/-- The file `"g"` is created next to `"f"`. -/
theorem opened_g : ∃ fd w₁,
    open_file aDevice activeEnv [0x67] { acc := .rdwr, creat := true } encryptedFile =
      .ok (fd, w₁) ∧ w₁.file_info_list.countP (fun e => e.file_descriptor = fd) = 1 := by
  obtain ⟨fd, id, w₁, hopen, -, -, -, -, hlist⟩ :=
    @open_new_calm encryptedFile (fun _ => ⟨rfl, rfl, rfl⟩) [0x67] aDevice activeEnv
      { acc := .rdwr, creat := true } ⟨rfl, rfl, rfl⟩ (by decide) (by decide) rfl rfl
      (by decide) rfl
  refine ⟨fd, w₁, hopen, ?_⟩
  rw [hlist]
  simp [encryptedFile]

/-- Twenty bytes are written to it in two pieces, the second of which completes a block, and
    read back in three. -/
theorem sequential_writes_two : ∃ fd w₁ w₂ w₃ rfd w₄ w₅,
    open_file aDevice activeEnv [0x67] { acc := .rdwr, creat := true } encryptedFile =
        .ok (fd, w₁) ∧
      write_all aDevice activeEnv fd [zeroed 10, zeroed 10] w₁ = .ok ([10, 10], w₂) ∧
      w₂.kern.files.content [0x67] = some (newHeader none ++ stored aDevice.aes (zeroed 20)) ∧
      stat activeEnv [0x67] w₂ = .ok (some ⟨true, 20⟩, w₃) ∧
      open_file aDevice activeEnv [0x67] { acc := .rdonly } w₂ = .ok (rfd, w₄) ∧
      read_all aDevice activeEnv rfd [7, 9, 8] w₄ =
        .ok ([(7, zeroed 7), (9, zeroed 9), (4, zeroed 4)], w₅) := by
  have hc : encryptedFile.kern.host.Calm := fun _ => ⟨rfl, rfl, rfl⟩
  have h0 : encryptedFile.kern.InUse 0 := by decide
  obtain ⟨fd, w₁, hopen, honce⟩ := opened_g
  obtain ⟨-, w₂, hwrite, hiff⟩ := sequential_writes ⟨rfl, rfl, rfl⟩ hc h0 (by decide)
    (by decide) rfl rfl rfl rfl hopen honce [zeroed 10, zeroed 10]
  obtain ⟨hcontent, ⟨w₃, hsize⟩, rfd, w₄, hopen₄, -, hread⟩ :=
    hiff.mpr (recovers_short _ _ (by decide) _)
  obtain ⟨w₅, hrun, -⟩ := hread [7, 9, 8]
  rw [entryHeader_short (by decide)] at hcontent
  exact ⟨fd, w₁, w₂, w₃, rfd, w₄, w₅, hopen, hwrite, hcontent, hsize, hopen₄, hrun⟩

/-- A name of 1024 bytes, which leaves no room for its end. -/
def wideName : Path := List.replicate 1024 0x67

theorem wideName_recorded : wideName.length < (recordedPath aDevice wideName).length := by
  have hlong : wideName.length = PATH_MAX := List.length_replicate
  have hheader : entryHeader none wideName = newHeader none := by
    rw [entryHeader, List.drop_eq_nil_of_le (Nat.le_of_eq hlong), memcpy_zeroed (Nat.zero_le _)]
    rfl
  have hfirst : 0 < ((newHeader none).takeWhile (fun b => b ≠ 0)).length := by
    have hc : (newHeader none).take 1 = [0x63] := by
      rw [newHeader, file_header_init_take none (by rw [zeroed_length]; decide)]
      decide
    rw [← List.take_append_drop 1 (newHeader none), hc, List.cons_append,
      List.takeWhile_cons_of_pos (by decide), List.length_cons]
    omega
  have hcut : ¬ wideName.length < PATH_MAX := by
    rw [hlong]
    decide
  show _ < (spilled wideName (entryHeader none wideName)).length
  rw [spilled, if_neg hcut, List.length_append, hheader,
    List.take_of_length_le (Nat.le_of_eq hlong)]
  omega

/-- Of two bytes that are written to a file of that name the first is lost: the second write
    finds no file under what is recorded, and puts a zero in its place. -/
theorem wide_name_loses_byte : ∃ fd w₁ w₂,
    open_file aDevice activeEnv wideName { acc := .rdwr, creat := true } encryptedFile =
        .ok (fd, w₁) ∧ 0 < fd ∧
      w₁.file_info_list.countP (fun e => e.file_descriptor = fd) = 1 ∧
      write_all aDevice activeEnv fd [[1], [2]] w₁ = .ok ([1, 1], w₂) ∧
      w₂.kern.files.content wideName = some (entryHeader none wideName ++ [0, 2]) ∧
      [0, 2] ≠ stored aDevice.aes [[1], [2]].flatten := by
  have hc : encryptedFile.kern.host.Calm := fun _ => ⟨rfl, rfl, rfl⟩
  have h0 : encryptedFile.kern.InUse 0 := by decide
  have hshort : ∀ p : Path, 1024 ≤ p.length → encryptedFile.kern.files.names p = none := by
    intro p hp
    refine if_neg fun hname => ?_
    rw [hname] at hp
    exact absurd hp (by decide)
  have hlong : wideName.length = 1024 := List.length_replicate
  have hne : recordedPath aDevice wideName ≠ wideName := by
    intro h
    have hlt := wideName_recorded
    rw [h] at hlt
    exact Nat.lt_irrefl _ hlt
  have hname : encryptedFile.kern.files.names wideName = none := hshort _ (Nat.le_of_eq hlong.symm)
  obtain ⟨fd, id, w₁, hopen, hpos, hnew, -, -, hlist⟩ :=
    @open_new_calm encryptedFile hc wideName aDevice activeEnv { acc := .rdwr, creat := true }
      ⟨rfl, rfl, rfl⟩ (by decide) h0 hname rfl (by decide) rfl
  have honce : w₁.file_info_list.countP (fun e => e.file_descriptor = fd) = 1 := by
    rw [hlist]
    simp [encryptedFile]
  obtain ⟨w₂, id₂, hwrite, hend, hbeside⟩ := written_aside ⟨rfl, rfl, rfl⟩ hc h0 (by decide)
    (by decide) hname rfl rfl hopen honce rfl hne [[1], [2]]
  -- nothing is found under the recorded path
  have hnone : encryptedFile.kern.files.content (recordedPath aDevice wideName) = none :=
    (FileStore.content_eq_none _).mpr (hshort _ (by have := wideName_recorded; omega))
  have hfilled : filled aDevice.aes (fun n => shown encryptedFile.kern.files
      (recordedPath aDevice wideName) (FILE_HEADER_POLL_SIZE + n)) [[1], [2]] = [0, 2] := by
    simp only [shown, hnone]
    decide
  refine ⟨fd, w₁, w₂, hopen, hpos, honce, hwrite, ?_, ?_⟩
  · rw [FileStore.content_of_names _ ((congrFun hbeside.names wideName).trans hnew.name), hend.data,
      hfilled]
    rfl
  · rw [stored_short aDevice.aes (by decide)]
    decide

end TeSequential
