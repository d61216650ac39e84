import TransEncrypt.OverlayProofs

/-! # The plain file — what an application is meant to see

    An encrypted file is there to behave like the plain file it stands for.  This
    is that plain file: its bytes and a cursor, with the calls as POSIX has them.
    Nothing here is translated from the source; the hooks are compared with it.

    `reads_flatten` is chunk independence: however a stretch is cut into reads, the
    pieces put together are the stretch. -/

namespace Plain

open Overlay

structure PlainFile where
  bytes : List UInt8
  pos : Nat
  deriving DecidableEq

namespace PlainFile

variable (f : PlainFile)

def size : Nat := f.bytes.length

/-- The bytes a read of `n` delivers: `n`, or fewer at the end of the file. -/
def read (n : Nat) : List UInt8 := slice f.bytes f.pos n

/-- The file after that read. -/
def afterRead (n : Nat) : PlainFile := { f with pos := f.pos + (f.read n).length }

/-- Replace the bytes from the cursor on, a gap filled with zeros. -/
def write (b : List UInt8) : PlainFile :=
  { bytes := overlay 0 f.bytes f.pos b, pos := f.pos + b.length }

/-- The results of reads made one after the other. -/
def reads : PlainFile → List Nat → List (List UInt8)
  | _, [] => []
  | f, n :: ns => f.read n :: reads (f.afterRead n) ns

/-- The file after them. -/
def afterReads : PlainFile → List Nat → PlainFile
  | f, [] => f
  | f, n :: ns => afterReads (f.afterRead n) ns

theorem read_length (n : Nat) : (f.read n).length = min n (f.size - f.pos) :=
  slice_length _ _ _

@[simp] theorem afterRead_bytes (n : Nat) : (f.afterRead n).bytes = f.bytes := rfl

/-- Reads that follow each other deliver one stretch of the file. -/
theorem reads_flatten : ∀ (ns : List Nat) (f : PlainFile),
    (f.reads ns).flatten = slice f.bytes f.pos ns.sum := by
  intro ns
  induction ns with
  | nil => intro f; exact (slice_zero _ _).symm
  | cons n ns ih =>
      intro f
      rw [reads, List.flatten_cons, ih, List.sum_cons, ← slice_append]
      congr 1
      show slice f.bytes (f.pos + (f.read n).length) ns.sum = _
      rw [read_length]
      by_cases h : n ≤ f.size - f.pos
      · rw [Nat.min_eq_left h]
      · -- both start at or behind the end
        have hs : f.bytes.length = f.size := rfl
        rw [slice_past (by omega), slice_past (by omega)]

end PlainFile

end Plain
