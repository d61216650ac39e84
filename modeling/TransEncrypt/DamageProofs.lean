import TransEncrypt.TornProofs
import TransEncrypt.ReadProofs

/-! # What a failed or short write leaves

    A hooked write at the end of a stored file puts the pending bytes back, encrypted
    together with the new data, before it writes the data itself; none of the calls in
    between is checked.  Its result is the number of bytes of the data that arrived.

    * `ReadsBack`: what the bytes of a file give to later hooked reads;
    * `TornFits`: the bytes that arrived are the stored form of what the result promises,
      block by block;
    * `write_damage`: a write under any host keeps its promise exactly in that case. -/

namespace TeDamage

open Posix Overlay Blockwise TeHeader Hoare TeProgram Plain TeRead TeStored TeWrite TeTorn

/-! ## Reading the file back -/

/-- A file with the bytes `D` gives the plain text `Q` to hooked reads from its start,
    through any descriptor, in any pieces. -/
def ReadsBack (dev : Device) (env : Env) (D Q : List UInt8) : Prop :=
  ∀ (w : World) (fd : Int) (id : Nat), w.kern.host.Calm → w.kern.InUse 0 →
    w.kern.find fd = some id → (w.kern.desc id).regular = true →
    (w.kern.desc id).flags.acc.readable = true →
    w.kern.files.data (w.kern.desc id).inode = D →
    ((w.kern.desc id).pos = FILE_HEADER_POLL_SIZE ∨ (w.kern.desc id).pos = 0) →
    ∀ ns, ∃ w', read_all dev env fd ns w =
      .ok ((PlainFile.reads ⟨Q, 0⟩ ns).map (fun b => ((b.length : Int), b)), w')

section Back

variable {dev : Device} {env : Env} {H P Q : List UInt8} (henv : env.Active)
  (hH : RightsHeader H)
include henv hH

theorem readsBack_stored (P : List UInt8) : ReadsBack dev env (H ++ stored dev.aes P) P := by
  intro w fd id hc h0 hf hreg hacc hdata hpos ns
  have hshows : Shows dev H w fd id ⟨P, 0⟩ := by
    refine ⟨hf, hreg, hacc, hdata, ?_⟩
    rcases hpos with h | h
    · exact .inl h
    · exact .inr ⟨h, rfl⟩
  obtain ⟨w', hread, -⟩ := read_all_shows henv hH ns hc h0 hshows
  exact ⟨w', hread⟩

/-- A file gives back only one plain text. -/
theorem readsBack_unique (h : ReadsBack dev env (H ++ stored dev.aes P) Q) : P = Q := by
  -- a descriptor at the start, and one read that is long enough
  let n := P.length + Q.length
  let w : World := ⟨Kernel.oneDescriptor (H ++ stored dev.aes P) { acc := .rdonly } 0, []⟩
  have h0 : w.kern.InUse 0 := List.mem_cons_self ..
  obtain ⟨w₁, h₁⟩ := readsBack_stored henv hH P w 3 1 (fun _ => ⟨rfl, rfl, rfl⟩) h0 rfl rfl rfl rfl
    (.inr rfl) [n]
  obtain ⟨w₂, h₂⟩ := h w 3 1 (fun _ => ⟨rfl, rfl, rfl⟩) h0 rfl rfl rfl rfl (.inr rfl) [n]
  have hsame := (Prod.mk.inj (Except.ok.inj (h₁.symm.trans h₂))).1
  have hpair := (List.cons.inj hsame).1
  have hread : slice P 0 n = slice Q 0 n := (Prod.mk.inj hpair).2
  rw [slice_all (Nat.le_add_right _ _), slice_all (Nat.le_add_left _ _)] at hread
  exact hread

/-- Behind a header any bytes are the stored form of what they give back. -/
theorem readsBack_iff {Y : List UInt8} :
    ReadsBack dev env (H ++ Y) Q ↔ Y = stored dev.aes Q := by
  constructor
  · intro h
    obtain ⟨P, rfl⟩ := stored_surjective dev.aes Y
    rw [readsBack_unique henv hH h]
  · rintro rfl
    exact readsBack_stored henv hH Q

end Back

/-! ## The bytes behind the last whole block -/

/-- Of the buffer, which starts with the fetched prefix `F`, `q` bytes have gone back over
    the pending bytes `Q`, and `c` bytes have followed behind them. -/
def remains (aes : AES) (Q F b : List UInt8) (q c : Nat) : List UInt8 :=
  (stored aes (F ++ b)).take q ++ Q.drop q ++ ((stored aes (F ++ b)).drop Q.length).take c

/-- The condition under which these are the stored form of `Q` and `c` bytes of `b`. -/
structure TornFits (aes : AES) (Q F b : List UInt8) (q c : Nat) : Prop where
  /-- No block is completed: what went back is what was there. -/
  plain : Q.length + b.length < 16 → F.take q = Q.take q
  /-- A block is completed, but does not arrive as a whole: what arrives of it is the
      same encrypted and plain. -/
  cut : 16 ≤ Q.length + b.length → Q.length + c < 16 →
    (aes_encrypt_128bit aes ((F ++ b).take 16)).take q = Q.take q ∧
    slice (aes_encrypt_128bit aes ((F ++ b).take 16)) Q.length c = b.take c
  /-- The completed block arrives: put together it is the encrypted block of the pending
      bytes and the data. -/
  whole : 16 ≤ Q.length + c →
    (aes_encrypt_128bit aes ((F ++ b).take 16)).take q ++ Q.drop q
        ++ (aes_encrypt_128bit aes ((F ++ b).take 16)).drop Q.length
      = aes_encrypt_128bit aes ((Q ++ b).take 16)
  /-- A later block does not arrive as a whole: what arrives of it is the same encrypted
      and plain. -/
  tail : 16 ≤ Q.length + c → (Q.length + c) % 16 ≠ 0 →
    (Q.length + c) / 16 * 16 + 16 ≤ Q.length + b.length →
    (aes_encrypt_128bit aes (block (Q ++ b) ((Q.length + c) / 16))).take ((Q.length + c) % 16)
      = (block (Q ++ b) ((Q.length + c) / 16)).take ((Q.length + c) % 16)

section Remains

variable {aes : AES} {Q F b : List UInt8} {q c : Nat} (hF : F.length = Q.length)
  (hQ : Q.length < 16) (hq : q ≤ Q.length) (hc : c ≤ b.length)
include hF

/-- The first block of the buffer is encrypted. -/
private theorem stored_first (hn : 16 ≤ Q.length + b.length) :
    (stored aes (F ++ b)).take 16 = aes_encrypt_128bit aes ((F ++ b).take 16) := by
  rw [stored_take aes _ 1, stored_full]
  rw [List.length_take, List.length_append]
  omega

include hQ hq hc

omit hQ in
/-- No block is completed. -/
private theorem remains_plain (hn : Q.length + b.length < 16) :
    remains aes Q F b q c = stored aes (Q ++ b.take c) ↔ F.take q = Q.take q := by
  have hrest : (F ++ b).drop Q.length = b := by rw [← hF, List.drop_left]
  have hfront : (F ++ b).take q = F.take q := List.take_append_of_le_length (by omega)
  rw [remains, stored_short aes (by rw [List.length_append]; omega), hrest, hfront,
    stored_short aes (by rw [List.length_append, List.length_take]; omega), List.append_left_inj]
  constructor
  · intro h
    conv at h => rhs; rw [← List.take_append_drop q Q]
    exact List.append_cancel_right h
  · intro h
    rw [h, List.take_append_drop]

/-- It does not arrive as a whole. -/
private theorem remains_cut (hn : 16 ≤ Q.length + b.length) (hcut : Q.length + c < 16) :
    remains aes Q F b q c = stored aes (Q ++ b.take c) ↔
      (aes_encrypt_128bit aes ((F ++ b).take 16)).take q = Q.take q ∧
      slice (aes_encrypt_128bit aes ((F ++ b).take 16)) Q.length c = b.take c := by
  have hfront : (stored aes (F ++ b)).take q
      = (aes_encrypt_128bit aes ((F ++ b).take 16)).take q := by
    rw [← stored_first hF hn, List.take_take, Nat.min_eq_left (by omega)]
  have hrest : ((stored aes (F ++ b)).drop Q.length).take c
      = slice (aes_encrypt_128bit aes ((F ++ b).take 16)) Q.length c := by
    rw [← stored_first hF hn, slice, List.drop_take, List.take_take,
      Nat.min_eq_left (by omega)]
  have hlen : ((aes_encrypt_128bit aes ((F ++ b).take 16)).take q).length = (Q.take q).length := by
    rw [List.length_take, List.length_take, aes_encrypt_length aes (by
      rw [List.length_take, List.length_append]
      omega)]
    omega
  rw [remains, hfront, hrest, stored_short aes (by
    rw [List.length_append, List.length_take]
    omega)]
  conv => lhs; rhs; rw [← List.take_append_drop q Q]
  constructor
  · intro h
    rw [List.append_assoc, List.append_assoc] at h
    obtain ⟨h1, h2⟩ := List.append_inj h hlen
    exact ⟨h1, List.append_cancel_left h2⟩
  · rintro ⟨h1, h2⟩
    rw [h1, h2]

/-- It arrives as a whole. -/
private theorem remains_whole (hn : 16 ≤ Q.length + c) :
    remains aes Q F b q c = stored aes (Q ++ b.take c) ↔
      (aes_encrypt_128bit aes ((F ++ b).take 16)).take q ++ Q.drop q
          ++ (aes_encrypt_128bit aes ((F ++ b).take 16)).drop Q.length
        = aes_encrypt_128bit aes ((Q ++ b).take 16) ∧
      ((Q.length + c) % 16 ≠ 0 → (Q.length + c) / 16 * 16 + 16 ≤ Q.length + b.length →
        (aes_encrypt_128bit aes (block (Q ++ b) ((Q.length + c) / 16))).take ((Q.length + c) % 16)
          = (block (Q ++ b) ((Q.length + c) / 16)).take ((Q.length + c) % 16)) := by
  let X := stored aes (F ++ b)
  let E := aes_encrypt_128bit aes ((F ++ b).take 16)
  let B := b.drop (16 - Q.length)
  have hE : X.take 16 = E := stored_first hF (by omega)
  have hElen : E.length = 16 := by
    rw [← hE, List.length_take, stored_length, List.length_append]
    omega
  have hsplit : ∀ l : List UInt8, l.length = Q.length → (l ++ b).drop 16 = B := by
    intro l hl
    rw [List.drop_append, List.drop_eq_nil_of_le (by omega), List.nil_append, hl]
  -- the part of the buffer behind its first block
  have hback : X.drop 16 = stored aes B := by
    rw [show X.drop 16 = _ from stored_drop aes (F ++ b) 1]
    exact congrArg (stored aes) (hsplit F hF)
  have hfront : X.take q = E.take q := by
    rw [← hE, List.take_take, Nat.min_eq_left (by omega)]
  have hrest : (X.drop Q.length).take c
      = E.drop Q.length ++ (stored aes B).take (Q.length + c - 16) := by
    have hdrop : X.drop Q.length = E.drop Q.length ++ stored aes B := by
      conv => lhs; rw [← List.take_append_drop 16 X]
      rw [hE, hback, List.drop_append_of_le_length (by omega)]
    have hcount : c = (E.drop Q.length).length + (Q.length + c - 16) := by
      rw [List.length_drop, hElen]
      omega
    rw [hdrop]
    conv => lhs; rw [hcount]
    rw [List.take_length_add_append]
  have hleft : remains aes Q F b q c
      = (E.take q ++ Q.drop q ++ E.drop Q.length) ++ (stored aes B).take (Q.length + c - 16) := by
    show X.take q ++ Q.drop q ++ (X.drop Q.length).take c = _
    rw [hfront, hrest, List.append_assoc, List.append_assoc, List.append_assoc]
  have hright : stored aes (Q ++ b.take c)
      = aes_encrypt_128bit aes ((Q ++ b).take 16) ++ stored aes (B.take (Q.length + c - 16)) := by
    have hall : Q ++ b.take c = (Q ++ b).take (16 + (Q.length + c - 16)) := by
      rw [show 16 + (Q.length + c - 16) = Q.length + c from by omega, List.take_length_add_append]
    have hfirst : ((Q ++ b).take 16).length = 16 := by
      rw [List.length_take, List.length_append]
      omega
    rw [hall, List.take_add, stored_append aes (m := 1) hfirst, stored_full aes hfirst,
      hsplit Q rfl]
  have hlen : (E.take q ++ Q.drop q ++ E.drop Q.length).length
      = (aes_encrypt_128bit aes ((Q ++ b).take 16)).length := by
    rw [aes_encrypt_length aes (by rw [List.length_take, List.length_append]; omega),
      List.length_append, List.length_append, List.length_take, List.length_drop, List.length_drop,
      hElen]
    omega
  -- the cut runs through the same block of the data
  have hmod : (Q.length + c - 16) % 16 = (Q.length + c) % 16 := by omega
  have hBlen : B.length = Q.length + b.length - 16 := by
    rw [List.length_drop]
    omega
  have hblock : block B ((Q.length + c - 16) / 16) = block (Q ++ b) ((Q.length + c) / 16) := by
    rw [block, block, slice, slice, ← hsplit Q rfl, List.drop_drop]
    congr 2
    omega
  have htail := stored_take_iff aes B (Q.length + c - 16)
  rw [hmod, hblock, hBlen] at htail
  rw [hleft, hright]
  constructor
  · intro h
    obtain ⟨h1, h2⟩ := List.append_inj h hlen
    exact ⟨h1, fun hm hin => htail.mp h2 hm (by omega)⟩
  · rintro ⟨h1, h2⟩
    rw [h1, htail.mpr (fun hm hin => h2 hm (by omega))]

/-- **When the bytes fit.** -/
theorem remains_iff :
    remains aes Q F b q c = stored aes (Q ++ b.take c) ↔ TornFits aes Q F b q c := by
  by_cases h1 : Q.length + b.length < 16
  · rw [remains_plain hF hq hc h1]
    exact ⟨fun h => ⟨fun _ => h, fun _ => by omega, fun _ => by omega, fun _ => by omega⟩,
      fun h => h.plain h1⟩
  · by_cases h2 : Q.length + c < 16
    · rw [remains_cut hF hQ hq hc (by omega) h2]
      exact ⟨fun h => ⟨fun _ => by omega, fun _ _ => h, fun _ => by omega, fun _ => by omega⟩,
        fun h => h.cut (by omega) h2⟩
    · rw [remains_whole hF hQ hq hc (by omega)]
      exact ⟨fun h => ⟨fun _ => by omega, fun _ => by omega, fun _ => h.1, fun _ => h.2⟩,
        fun h => ⟨h.whole (by omega), h.tail (by omega)⟩⟩

end Remains

/-- The condition on the numbers alone: `t` bytes are pending, `n` are written, `m` have
    been fetched, `q` have gone back and `c` have followed. -/
def Kept (t n m q c : Nat) : Prop :=
  q = 0 ∧ c = 0 ∨ t + n < 16 ∧ q ≤ m ∨
    m = t ∧ q = t ∧ 16 ≤ t + c ∧ ((t + c) % 16 = 0 ∨ t + n < (t + c) / 16 * 16 + 16)

instance (t n m q c : Nat) : Decidable (Kept t n m q c) :=
  inferInstanceAs (Decidable (_ ∨ _ ∨ _))

theorem tornFits_of_kept {aes : AES} {Q b : List UInt8} {m q c : Nat} (hQ : Q.length < 16)
    (hm : m ≤ Q.length) (hc : c ≤ b.length) (h : Kept Q.length b.length m q c) :
    TornFits aes Q (Q.take m ++ zeroed (Q.length - m)) b q c := by
  have hlen : (Q.take m).length = m := by
    rw [List.length_take]
    omega
  rcases h with ⟨rfl, rfl⟩ | ⟨hn, hq⟩ | ⟨rfl, rfl, hn, htail⟩
  · exact ⟨fun _ => rfl, fun _ _ => ⟨rfl, slice_zero _ _⟩, fun _ => by omega, fun _ => by omega⟩
  · refine ⟨fun _ => ?_, fun _ => by omega, fun _ => by omega, fun _ _ => by omega⟩
    rw [List.take_append_of_le_length (by omega), List.take_take, Nat.min_eq_left hq]
  · have hF : Q.take Q.length ++ zeroed (Q.length - Q.length) = Q := by
      rw [List.take_length, Nat.sub_self]
      exact List.append_nil Q
    rw [hF]
    refine ⟨fun _ => rfl, fun _ _ => by omega, fun _ => ?_, fun _ h1 h2 => by omega⟩
    rw [List.drop_length, List.append_nil, List.take_append_drop]

/-! ## The whole write -/

/-- The header stands in front of whatever is left. -/
theorem torn_header (aes : AES) (app : Bool) {H P r : List UInt8} {q : Nat}
    (hH : H.length = FILE_HEADER_POLL_SIZE) (hr : r.length ≤ P.length % 16)
    (hq : q ≤ P.length % 16) (b : List UInt8) (c : Nat) :
    ∃ Y, torn aes app (H ++ stored aes P) r (FILE_HEADER_POLL_SIZE + P.length) b q c = H ++ Y := by
  cases app with
  | false => exact ⟨_, torn_end aes hH hr hq b c⟩
  | true => exact ⟨_, (torn_append aes _ r _ b q c).trans (List.append_assoc ..)⟩

/-- The bytes that a write leaves are the stored form of what arrived. -/
theorem torn_fits (aes : AES) {app : Bool} {H P r b : List UInt8} {q c : Nat}
    (hH : H.length = FILE_HEADER_POLL_SIZE) (hr : r.length ≤ P.length % 16)
    (hq : q ≤ P.length % 16) (hc : c ≤ b.length) :
    let off := FILE_HEADER_POLL_SIZE + P.length
    torn aes app (H ++ stored aes P) r off b q c = H ++ stored aes (P ++ b.take c) ↔
      (app = true → q = 0) ∧ TornFits aes (pending P) (front r off) b q c := by
  intro off
  have hQ : (pending P).length = P.length % 16 := pending_length P
  have hmod : off % 16 = P.length % 16 := header_mod P.length
  have hF : (front r off).length = (pending P).length := by
    rw [front_length (by rw [hmod]; exact hr), hQ, hmod]
  have hiff :
      remains aes (pending P) (front r off) b q c = stored aes (pending P ++ b.take c) ↔ _ :=
    remains_iff hF (by omega) (by omega) hc
  cases app with
  | false =>
      have htorn : torn aes false (H ++ stored aes P) r off b q c
          = H ++ (stored aes (whole P) ++ remains aes (pending P) (front r off) b q c) := by
        rw [remains, hQ]
        exact torn_end aes hH hr hq b c
      rw [htorn, stored_added, List.append_right_inj, List.append_right_inj, hiff]
      exact ⟨fun h => ⟨fun hf => (by cases hf), h⟩, And.right⟩
  | true =>
      let X := stored aes (front r off ++ b)
      have htorn : torn aes true (H ++ stored aes P) r off b q c
          = H ++ (stored aes (whole P) ++ (pending P ++ (X.take q
            ++ (X.drop (pending P).length).take c))) := by
        rw [torn_append, hmod, stored_pending aes P, hQ, List.append_assoc, List.append_assoc]
        rfl
      have hzero : q = 0 → pending P ++ (X.take q ++ (X.drop (pending P).length).take c)
          = remains aes (pending P) (front r off) b q c := by
        rintro rfl
        rfl
      rw [htorn, stored_added, List.append_right_inj, List.append_right_inj]
      constructor
      · intro h
        have hlen := congrArg List.length h
        have hX : X.length = (pending P).length + b.length := by
          rw [stored_length, List.length_append, hF]
        simp only [List.length_append, stored_length, List.length_take, List.length_drop] at hlen
        have h0 : q = 0 := by omega
        exact ⟨fun _ => h0, hiff.mp ((hzero h0).symm.trans h)⟩
      · rintro ⟨h0, h⟩
        rw [hzero (h0 rfl)]
        exact hiff.mpr h

/-- What is fetched when the recorded path still denotes the file. -/
theorem front_own (k : Kernel) {path : Path} {i : Nat} {H P : List UInt8} {aes : AES}
    (hH : H.length = FILE_HEADER_POLL_SIZE) (hname : k.files.names path = some i)
    (hdata : k.files.data i = H ++ stored aes P) :
    let off := FILE_HEADER_POLL_SIZE + P.length
    let m := if k.answer.fails then 0 else given (k.tock 1).answer (P.length % 16)
    front (fetched k path off) off
      = (pending P).take m ++ zeroed ((pending P).length - m) := by
  intro off m
  have hmod : off % 16 = P.length % 16 := header_mod P.length
  have hback : off / 16 * 16 = (H ++ stored aes (whole P)).length + 0 := header_back aes hH P
  have hm : m ≤ P.length % 16 := by
    show (if _ then _ else _) ≤ _
    split
    · exact Nat.zero_le _
    · exact given_le _ _
  have hfetched : fetched k path off = (pending P).take m := by
    by_cases hfails : k.answer.fails = true
    · rw [fetched, if_pos hfails, show m = 0 from if_pos hfails, List.take_zero]
    · have hslice : ∀ n, slice (H ++ stored aes P) (off / 16 * 16) n = (pending P).take n := by
        intro n
        rw [stored_pending, ← List.append_assoc, hback, slice_append_left]
        rfl
      rw [fetched, if_neg hfails, hname, show m = _ from if_neg hfails]
      show slice (k.files.data i) _ _ = _
      rw [hdata, hmod, hslice]
  rw [hfetched, front, hmod, List.length_take, pending_length, Nat.min_eq_left hm]

/-- The condition on a write of `b` behind `P`: there is no memory for the buffer, and nothing
    is done, or the bytes that the host lets through fit.  The fifth call puts the
    encrypted prefix back, the seventh writes the data. -/
def Survives (aes : AES) (w : World) (id : Nat) (fi : FileInfo) (P b : List UInt8) : Prop :=
  let k := w.kern
  let off := FILE_HEADER_POLL_SIZE + P.length
  let a := allowed (k.desc id).flags.acc.writable
  let q := given (a (k.tock 4).answer) (P.length % 16)
  let c := given (a (k.tock 6).answer) b.length
  (k.tock 1).answer.fails = true ∨ ((k.desc id).flags.append = true → q = 0) ∧
    TornFits aes (pending P) (front (fetched (k.tock 2) fi.file_path off) off) b q c

section Write

variable {dev : Device} {env : Env} {w : World} {fd : Int} {id : Nat} {fi : FileInfo}
  {H P b : List UInt8} (henv : env.Active) (hf : w.kern.find fd = some id)
  (hreg : (w.kern.desc id).regular = true)
  (hq : w.file_info_list.find? (fun e => e.file_descriptor = fd) = some fi)
  (hH : RightsHeader H)
  (hdata : w.kern.files.data (w.kern.desc id).inode = H ++ stored dev.aes P)
  (hpos : (w.kern.desc id).pos = FILE_HEADER_POLL_SIZE + P.length)
  (hseek : w.kern.answer.fails = false) (hb : b ≠ [])
include henv hf hreg hq hH hdata hpos hseek hb

/-- With memory for the buffer: the run, and when its bytes are those promised. -/
theorem write_torn (hmem : (w.kern.tock 1).answer.fails = false) :
    let k := w.kern
    let off := FILE_HEADER_POLL_SIZE + P.length
    let a := allowed (k.desc id).flags.acc.writable
    let q := given (a (k.tock 4).answer) (P.length % 16)
    let c := given (a (k.tock 6).answer) b.length
    ∃ w', write dev env fd b w = .ok (reported (a (k.tock 6).answer) b.length, w') ∧
      (ReadsBack dev env (w'.kern.files.data (k.desc id).inode) (P ++ b.take c) ↔
        ((k.desc id).flags.append = true → q = 0) ∧ TornFits dev.aes (pending P)
          (front (fetched (k.tock 2) fi.file_path off) off) b q c) := by
  intro k off a q c
  have hmod : off % 16 = P.length % 16 := header_mod P.length
  obtain ⟨k', hrun, hwrote, -⟩ := write_any dev henv hf hreg hq hseek hmem hb
  rw [hpos, hdata, hmod] at hwrote
  refine ⟨{ w with kern := k' }, hrun, ?_⟩
  let r := fetched (k.tock 2) fi.file_path off
  let D := torn dev.aes (k.desc id).flags.append (H ++ stored dev.aes P) r off b q c
  have hdata' : k'.files.data (k.desc id).inode = D := by
    rw [hwrote.files]
    exact FileStore.store_data_self ..
  have hfits : D = H ++ stored dev.aes (P ++ b.take c) ↔ _ :=
    torn_fits dev.aes hH.length (by rw [← hmod]; exact fetched_length _ _ _) (given_le _ _)
      (given_le _ _)
  rw [← hfits]
  show ReadsBack dev env (k'.files.data (k.desc id).inode) _ ↔ _
  obtain ⟨Y, hY⟩ : ∃ Y, D = H ++ Y := torn_header dev.aes _ hH.length
    (by rw [← hmod]; exact fetched_length _ _ _) (given_le _ _) b c
  rw [hdata', hY, readsBack_iff henv hH, List.append_right_inj]

/-- **A write under any host.**  It returns, and the file gives back the old plain text and
    as many bytes of the buffer as the result says exactly when the write survives its
    failures. -/
theorem write_damage : ∃ r w', write dev env fd b w = .ok (r, w') ∧
    (ReadsBack dev env (w'.kern.files.data (w.kern.desc id).inode) (P ++ b.take r.toNat) ↔
      Survives dev.aes w id fi P b) := by
  by_cases hmem : (w.kern.tock 1).answer.fails = true
  · refine ⟨-1, _, write_no_buffer henv hmem hb, fun _ => .inl hmem, fun _ => ?_⟩
    show ReadsBack dev env (w.kern.files.data (w.kern.desc id).inode) (P ++ b.take 0)
    rw [hdata, List.take_zero, List.append_nil]
    exact readsBack_stored henv hH P
  · have hmem' : (w.kern.tock 1).answer.fails = false := by simpa using hmem
    obtain ⟨w', hrun, hiff⟩ := write_torn henv hf hreg hq hH hdata hpos hseek hb hmem'
    refine ⟨_, w', hrun, ?_⟩
    rw [reported_toNat, Survives, or_iff_right hmem]
    exact hiff

end Write

/-! ## One zero byte, and a write whose last call fails -/

/-- The file holds one zero; the seventh call, which writes the data, fails. -/
def lastFails : World where
  kern := { Kernel.oneDescriptor (newHeader none ++ stored zeroBlockAes [0])
      { acc := .rdwr } 4097 with
    host := { answer := fun t => { fails := decide (t = 6) } } }
  file_info_list := [⟨3, Kernel.aName, some 1⟩]

/-- The pending byte is fetched and goes back. -/
private theorem lastFails_front :
    front (fetched (lastFails.kern.tock 2) Kernel.aName 4097) 4097 = [0] :=
  front_own (lastFails.kern.tock 2) (i := 1) (P := [0]) (newHeader_length none) rfl rfl

private theorem lastFails_rights : RightsHeader (newHeader none) :=
  ⟨newHeader_length none, newHeader_rights none⟩

/-- One more byte: no block is completed, and the write that failed leaves the old byte. -/
theorem write_damage_none : ∃ r w', write aDevice activeEnv 3 [9] lastFails = .ok (r, w') ∧
    ReadsBack aDevice activeEnv (w'.kern.files.data 1) ([0] ++ [9].take r.toNat) := by
  obtain ⟨r, w', hrun, hiff⟩ := @write_damage aDevice activeEnv lastFails 3 1
    ⟨3, Kernel.aName, some 1⟩ (newHeader none) [0] [9] ⟨rfl, rfl, rfl⟩ rfl rfl rfl lastFails_rights
      rfl rfl rfl (by decide)
  refine ⟨r, w', hrun, hiff.mpr (.inr ⟨fun h => (by cases h), ?_⟩)⟩
  show TornFits zeroBlockAes [0] (front (fetched (lastFails.kern.tock 2) Kernel.aName 4097) 4097)
    [9] 1 0
  rw [lastFails_front]
  exact tornFits_of_kept (m := 1) (by decide) (by decide) (by decide) (by decide)

/-- Fifteen more bytes: the old byte goes back as the first byte of an encrypted block whose
    rest never arrives, and the failed write has changed what the file gives back. -/
theorem failed_write_damages : ∃ r w',
    write aDevice activeEnv 3 (zeroed 15) lastFails = .ok (r, w') ∧ r = -1 ∧
    ¬ ReadsBack aDevice activeEnv (w'.kern.files.data 1) ([0] ++ (zeroed 15).take r.toNat) := by
  obtain ⟨w', hrun, hiff⟩ := @write_torn aDevice activeEnv lastFails 3 1
    ⟨3, Kernel.aName, some 1⟩ (newHeader none) [0] (zeroed 15) ⟨rfl, rfl, rfl⟩ rfl rfl rfl
      lastFails_rights
      rfl rfl rfl (by decide) rfl
  refine ⟨-1, w', hrun, rfl, fun hback => ?_⟩
  have hfits : TornFits zeroBlockAes [0]
      (front (fetched (lastFails.kern.tock 2) Kernel.aName 4097) 4097) (zeroed 15) 1 0 :=
    (hiff.mp hback).2
  rw [lastFails_front] at hfits
  have hcut := (hfits.cut (by decide) (by decide)).1
  exact absurd hcut (by decide)

end TeDamage
