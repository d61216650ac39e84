import TransEncrypt.ProgramProofs

/-! # Transfers that fail or are cut short

    A call that reads or writes may carry out less than it was asked to, or nothing.

    * `given`: how many bytes of a transfer are carried out;
    * `reported`: the result of the call, which is -1 when it failed;
    * `sysPread_any`, `sysPwrite_any`, `sysWrite_any`: the calls under any answer. -/

namespace TeTorn

open Posix Overlay TeProgram

/-! ## Calls that may fail -/

/-- How many of `n` bytes a transfer carries out; none when it fails. -/
def given (a : Answer) (n : Nat) : Nat := if a.fails then 0 else a.cut n

/-- The result of such a transfer. -/
def reported (a : Answer) (n : Nat) : Int := if a.fails then -1 else (a.cut n : Int)

theorem given_le (a : Answer) (n : Nat) : given a n ≤ n := by
  unfold given
  split
  · exact Nat.zero_le n
  · exact a.cut_le n

/-- The result counts the bytes. -/
theorem reported_toNat (a : Answer) (n : Nat) : (reported a n).toNat = given a n := by
  unfold reported given
  split
  · rfl
  · exact Int.toNat_natCast _

theorem given_calm {h : Host} (hc : h.Calm) (t n : Nat) : given (h.answer t) n = n := by
  rw [given, (hc t).1, Answer.cut, (hc t).2]
  rfl

theorem reported_calm {h : Host} (hc : h.Calm) (t n : Nat) : reported (h.answer t) n = n := by
  rw [reported, (hc t).1, Answer.cut, (hc t).2]
  rfl

/-- A full transfer is known by its result. -/
theorem reported_full (a : Answer) {n : Nat} (hn : 0 < n) : reported a n = n ↔ given a n = n := by
  unfold reported given
  split
  · constructor
    · intro h
      omega
    · intro h
      omega
  · exact Int.ofNat_inj

/-- The answer to a write through a descriptor that may not be open for writing. -/
def allowed (writable : Bool) (a : Answer) : Answer := { a with fails := a.fails || !writable }

@[simp] theorem allowed_true (a : Answer) : allowed true a = a := by
  simp [allowed]

/-- Storing what is there. -/
theorem setData_same (k : Kernel) (i : Nat) : k.setData i (k.files.data i) = k := by
  apply Kernel.ext
  · exact k.files.store_same i
  all_goals rfl

section Calls

variable {k : Kernel} {fd : Int} {id : Nat} (hf : k.find fd = some id)
  (hreg : (k.desc id).regular = true)
include hf hreg

/-- Reading a whole file. -/
theorem sysPread_any (hacc : (k.desc id).flags.acc.readable = true) {D : List UInt8}
    (hD : k.files.data (k.desc id).inode = D) :
    k.sysPread fd D.length 0 =
      ((reported k.answer D.length, D.take (given k.answer D.length)), k.tock 1) := by
  have hneg : ¬ (0 : Int) < 0 := by omega
  have hslice : ∀ c, slice D (0 : Int).toNat c = D.take c := fun _ => rfl
  simp only [Kernel.sysPread, hf, hreg, hacc, hD, Bool.not_true, Bool.or_false, hneg,
    decide_false, hslice]
  by_cases hfails : k.answer.fails = true
  · rw [if_pos hfails, given, if_pos hfails, reported, if_pos hfails, List.take_zero]
  · rw [if_neg hfails, given, if_neg hfails, reported, if_neg hfails, List.length_take,
      Nat.min_eq_left (k.answer.cut_le _)]

theorem sysPwrite_any (bs : List UInt8) (off : Nat) :
    let a := allowed (k.desc id).flags.acc.writable k.answer
    k.sysPwrite fd bs off = (reported a bs.length,
      (k.tock 1).setData (k.desc id).inode (overlay 0 (k.files.data (k.desc id).inode)
        (k.target (k.desc id) off) (bs.take (given a bs.length)))) := by
  intro a
  have hneg : ¬ ((off : Nat) : Int) < 0 := by omega
  simp only [Kernel.sysPwrite, hf, hreg, Bool.not_true, Bool.or_false, hneg, decide_false,
    Int.toNat_natCast]
  show (if a.fails = true then _ else _) = _
  by_cases hfails : a.fails = true
  · rw [if_pos hfails, given, if_pos hfails, reported, if_pos hfails, List.take_zero, overlay_nil]
    exact congrArg (fun j => ((-1 : Int), j)) (setData_same (k.tock 1) _).symm
  · rw [if_neg hfails, given, if_neg hfails, reported, if_neg hfails, List.length_take,
      Nat.min_eq_left (Answer.cut_le _ _)]
    rfl

theorem sysWrite_any (bs : List UInt8) :
    let a := allowed (k.desc id).flags.acc.writable k.answer
    let c := given a bs.length
    k.sysWrite fd bs = (reported a bs.length,
      ((k.tock 1).setData (k.desc id).inode (overlay 0 (k.files.data (k.desc id).inode)
        (k.target (k.desc id) (k.desc id).pos) (bs.take c))).setPos id
        (if c = 0 then (k.desc id).pos else k.target (k.desc id) (k.desc id).pos + c)) := by
  intro a c
  have hlen : (bs.take (k.answer.cut bs.length)).length = k.answer.cut bs.length := by
    rw [List.length_take, Nat.min_eq_left (Answer.cut_le _ _)]
  -- no byte is written
  have hnone : ∀ r : Int, c = 0 → (r, k.tock 1) = (r,
      ((k.tock 1).setData (k.desc id).inode (overlay 0 (k.files.data (k.desc id).inode)
        (k.target (k.desc id) (k.desc id).pos) (bs.take c))).setPos id
        (if c = 0 then (k.desc id).pos else k.target (k.desc id) (k.desc id).pos + c)) := by
    intro r h0
    rw [if_pos h0, h0, List.take_zero, overlay_nil]
    refine congrArg (fun j => (r, j)) ?_
    rw [show (k.tock 1).setData (k.desc id).inode (k.files.data (k.desc id).inode) = k.tock 1 from
      setData_same (k.tock 1) _]
    exact ((k.tock 1).setPos_same id).symm
  simp only [Kernel.sysWrite, hf, hreg, if_true]
  show (if a.fails = true then _ else _) = _
  by_cases hfails : a.fails = true
  · rw [if_pos hfails, reported, if_pos hfails]
    exact hnone _ (by rw [show c = given a bs.length from rfl, given, if_pos hfails])
  · have hc : c = k.answer.cut bs.length := by
      rw [show c = given a bs.length from rfl, given, if_neg hfails]
      rfl
    rw [if_neg hfails, reported, if_neg hfails]
    show _ = (((k.answer.cut bs.length : Nat) : Int), _)
    by_cases h0 : bs.take (k.answer.cut bs.length) = []
    · have hzero : k.answer.cut bs.length = 0 := by
        rw [← hlen, h0]
        rfl
      rw [if_pos h0, hzero]
      exact hnone _ (by rw [hc, hzero])
    · have hpos : c ≠ 0 := by
        intro h
        rw [hc] at h
        rw [h, List.take_zero] at h0
        exact h0 rfl
      rw [if_neg h0, hlen, if_neg hpos, hc]

end Calls

end TeTorn
