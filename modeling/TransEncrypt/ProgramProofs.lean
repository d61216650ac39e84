import TransEncrypt.SyscallProofs
import TransEncrypt.HeaderProofs
import TransEncrypt.HoareProofs

/-! # The state of a hooked process — the real calls and the descriptor table

    The library replaces `open`, `read`, `write` and their relatives in a process
    and reaches the real ones through the `linker_` pointers.  Its own state is
    `file_info_list` (`ports/util.c`), which remembers the descriptors of encrypted
    files and the paths they were opened under.

    Where the C code would run into undefined behaviour (a null pointer, a copy
    outside a buffer) the model stops with `undefined`.  One copy leaves its buffer and
    stays inside the record: a long path runs on into the header behind it (`spilled`). -/

namespace TeProgram

open Posix Overlay TeHeader Hoare

/-- What the hooks take as it is: the cipher, the name of the process, and the two predicates on
    paths.  The name is what `get_process_name` of util.c finds in `/proc/<pid>/cmdline` up to
    the first NUL, none when there was no memory for it; its own open, read and close are left
    out. -/
structure Device where
  aes : AES
  get_process_name : Option (List UInt8)
  is_support_file_type_by_path : Path → Int
  is_support_special_file_type_by_path : Path → Int

/-- The conditions every hook evaluates anew when it is called. -/
structure Env where
  linker_running_state : Bool
  is_trust_process : Bool
  get_domain_state : Bool
  deriving DecidableEq, Repr

/-- The library is loaded and encryption is switched on for this process. -/
def Env.Active (e : Env) : Prop :=
  e.linker_running_state = true ∧ e.is_trust_process = true ∧ e.get_domain_state = true

instance (e : Env) : Decidable e.Active := inferInstanceAs (Decidable (_ ∧ _))

/-- The size of the buffers for pathnames, which is smaller than that of the kernel. -/
def PATH_MAX : Nat := 1024

/-- The string in `file_path` once the header behind it is filled in: the end of a path that
    does not fit is overwritten, and the string runs on to the first NUL of the header. -/
def spilled (path : Path) (header : List UInt8) : Path :=
  if path.length < PATH_MAX then path
  else path.take PATH_MAX ++ header.takeWhile (fun b => b ≠ 0)

@[simp] theorem spilled_short {path : Path} (h : path.length < PATH_MAX) (header : List UInt8) :
    spilled path header = path := if_pos h

/-- A string that stands in the entry of a file opened under `path`. -/
def Recorded (path p : Path) : Prop := p = path ∨ ∃ header, p = spilled path header

theorem Recorded.short {path p : Path} (hr : Recorded path p) (h : path.length < PATH_MAX) :
    p = path := by
  rcases hr with rfl | ⟨header, rfl⟩
  · rfl
  · exact spilled_short h header

/-- The header of a new file is made in its entry, over what a long path has left there. -/
def entryHeader (name : Option (List UInt8)) (path : Path) : List UInt8 :=
  (file_header_init name (memcpy (zeroed FILE_HEADER_POLL_SIZE) 0 (path.drop PATH_MAX))).1

@[simp] theorem entryHeader_length (name : Option (List UInt8)) (path : Path) :
    (entryHeader name path).length = FILE_HEADER_POLL_SIZE := by
  rw [entryHeader, file_header_init_length, memcpy_length, zeroed_length]

theorem entryHeader_rights (name : Option (List UInt8)) (path : Path) :
    is_encrypted_by_file_header (entryHeader name path) = FILE_TYPE_RIGHTS :=
  file_header_init_rights name (by rw [memcpy_length, zeroed_length])

theorem entryHeader_short {path : Path} (h : path.length < PATH_MAX)
    (name : Option (List UInt8)) : entryHeader name path = newHeader name := by
  rw [entryHeader, List.drop_eq_nil_of_le (Nat.le_of_lt h), memcpy_zeroed (Nat.zero_le _)]
  rfl

/-- `struct file_info`, without the copy of the header, which nothing reads as one.
    `origin` is not in the source: it records which file the path denoted when the
    file was opened, for statements about the table only. -/
structure FileInfo where
  file_descriptor : Int
  file_path : Path
  origin : Option Nat
  deriving DecidableEq, Repr

structure World where
  kern : Kernel
  file_info_list : List FileInfo

/-- The same state under another host. -/
def World.under (w : World) (host : Host) : World :=
  { w with kern := { w.kern with host := host } }

/-- Why a call does not return. -/
inductive Stop where
  | undefined
  | waiting
  deriving DecidableEq, Repr

abbrev Sys (α : Type) := Prog World Stop α

/-! ## The real calls -/

/-- A call of the kernel. -/
def kernelCall {α : Type} (f : Kernel → α × Kernel) : Sys α :=
  fun w => .ok ((f w.kern).1, { w with kern := (f w.kern).2 })

def undefinedBehaviour {α : Type} : Sys α := fun _ => .error .undefined

def linker_open (path : Path) (flags : Flags) : Sys Int :=
  kernelCall (fun k => k.sysOpen path flags)

def linker_read (fd : Int) (count : Nat) : Sys (Int × List UInt8) :=
  kernelCall (fun k => k.sysRead fd count)

def linker_pread (fd : Int) (count : Nat) (offset : Int) : Sys (Int × List UInt8) :=
  kernelCall (fun k => k.sysPread fd count offset)

def linker_write (fd : Int) (buf : List UInt8) : Sys Int :=
  kernelCall (fun k => k.sysWrite fd buf)

def linker_pwrite (fd : Int) (buf : List UInt8) (offset : Int) : Sys Int :=
  kernelCall (fun k => k.sysPwrite fd buf offset)

def linker_lseek (fd : Int) (offset : Int) (whence : Whence) : Sys Int :=
  kernelCall (fun k => k.sysLseek fd offset whence)

def linker_dup (oldfd : Int) : Sys Int := kernelCall (fun k => k.sysDup oldfd)

def linker_close (fd : Int) : Sys Int := kernelCall (fun k => k.sysClose fd)

def linker_fstat (fd : Int) : Sys (Option Stat) := kernelCall (fun k => k.sysFstat fd)

def linker_stat (path : Path) : Sys (Option Stat) :=
  kernelCall (fun k => k.sysStat path)

def access (path : Path) : Sys Int := kernelCall (fun k => (k.sysAccess path, k))

def fcntl_getfl (fd : Int) : Sys (Option Flags) := kernelCall (fun k => (k.sysGetfl fd, k))

/-- An allocation: whether memory was given. -/
def calloc : Sys Bool := kernelCall (fun k => (!k.answer.fails, k.tock 1))

theorem kernelCall_ok {α : Type} {f : Kernel → α × Kernel} {w : World} {a : α}
    {k : Kernel} (h : f w.kern = (a, k)) :
    kernelCall f w = .ok (a, { w with kern := k }) := by
  rw [kernelCall, h]

/-- A call that returned. -/
theorem kernelCall_inv {α : Type} {f : Kernel → α × Kernel} {w w' : World} {a : α}
    (h : kernelCall f w = .ok (a, w')) :
    a = (f w.kern).1 ∧ w' = { w with kern := (f w.kern).2 } := by
  obtain ⟨rfl, rfl⟩ := Prod.mk.inj (Except.ok.inj h)
  exact ⟨rfl, rfl⟩

/-- An `open` that returned failed, or gave a new descriptor. -/
theorem linker_open_inv {w w' : World} {path : Path} {flags : Flags} {fd : Int}
    (h : linker_open path flags w = .ok (fd, w')) :
    (fd = -1 ∧ w' = { w with kern := w.kern.tock 1 }) ∨
      ∃ i k', w' = { w with kern := k' } ∧ Kernel.Opened w.kern path flags fd i k' := by
  obtain ⟨hfd, hw'⟩ := kernelCall_inv h
  rcases w.kern.sysOpen_cases path flags with hfail | ⟨i, hopen⟩
  · rw [hfail] at hfd hw'
    exact .inl ⟨hfd, hw'⟩
  · exact .inr ⟨i, _, hw', hfd ▸ hopen⟩

/-- A `dup` that returned failed, or gave a new descriptor. -/
theorem linker_dup_inv {w w' : World} {fd nfd : Int} (h : linker_dup fd w = .ok (nfd, w')) :
    (nfd = -1 ∧ w' = { w with kern := w.kern.tock 1 }) ∨
      ∃ id k', w' = { w with kern := k' } ∧ w.kern.find fd = some id ∧
        Kernel.Gained w.kern nfd id k' := by
  obtain ⟨hfd, hw'⟩ := kernelCall_inv h
  rcases w.kern.sysDup_cases fd with hfail | ⟨id, hfind, hdup⟩
  · rw [hfail] at hfd hw'
    exact .inl ⟨hfd, hw'⟩
  · exact .inr ⟨id, _, hw', hfind, hfd ▸ hdup⟩

section Calls

variable {w : World} {fd r : Int} {k' : Kernel} {path : Path} {flags : Flags}

theorem linker_open_ok (h : w.kern.sysOpen path flags = (r, k')) :
    linker_open path flags w = .ok (r, { w with kern := k' }) := kernelCall_ok h

theorem linker_read_ok {n : Nat} {b : List UInt8} (h : w.kern.sysRead fd n = ((r, b), k')) :
    linker_read fd n w = .ok ((r, b), { w with kern := k' }) := kernelCall_ok h

theorem linker_pread_ok {n : Nat} {off : Int} {b : List UInt8}
    (h : w.kern.sysPread fd n off = ((r, b), k')) :
    linker_pread fd n off w = .ok ((r, b), { w with kern := k' }) := kernelCall_ok h

theorem linker_write_ok {b : List UInt8} (h : w.kern.sysWrite fd b = (r, k')) :
    linker_write fd b w = .ok (r, { w with kern := k' }) := kernelCall_ok h

theorem linker_pwrite_ok {b : List UInt8} {off : Int}
    (h : w.kern.sysPwrite fd b off = (r, k')) :
    linker_pwrite fd b off w = .ok (r, { w with kern := k' }) := kernelCall_ok h

theorem linker_lseek_ok {off : Int} {whence : Whence}
    (h : w.kern.sysLseek fd off whence = (r, k')) :
    linker_lseek fd off whence w = .ok (r, { w with kern := k' }) := kernelCall_ok h

theorem linker_dup_ok (h : w.kern.sysDup fd = (r, k')) :
    linker_dup fd w = .ok (r, { w with kern := k' }) := kernelCall_ok h

theorem linker_close_ok (h : w.kern.sysClose fd = (r, k')) :
    linker_close fd w = .ok (r, { w with kern := k' }) := kernelCall_ok h

theorem linker_fstat_ok {st : Option Stat} (h : w.kern.sysFstat fd = (st, k')) :
    linker_fstat fd w = .ok (st, { w with kern := k' }) := kernelCall_ok h

theorem linker_stat_ok {st : Option Stat} (h : w.kern.sysStat path = (st, k')) :
    linker_stat path w = .ok (st, { w with kern := k' }) := kernelCall_ok h

theorem linker_stat_calm {i : Nat} (hc : w.kern.host.Calm)
    (hname : w.kern.files.names path = some i) :
    linker_stat path w =
      .ok (some ⟨true, (w.kern.files.data i).length⟩, { w with kern := w.kern.tock 1 }) := by
  apply linker_stat_ok
  rw [Kernel.sysStat_calm hc, w.kern.files.content_of_names hname]
  rfl

theorem access_ok (h : w.kern.sysAccess path = r) : access path w = .ok (r, w) := by
  rw [access, kernelCall_ok (w := w) (k := w.kern) (by rw [h])]

theorem fcntl_getfl_ok {fl : Option Flags} (h : w.kern.sysGetfl fd = fl) :
    fcntl_getfl fd w = .ok (fl, w) := by
  rw [fcntl_getfl, kernelCall_ok (w := w) (k := w.kern) (by rw [h])]

end Calls

theorem calloc_ok {w : World} (h : w.kern.answer.fails = false) :
    calloc w = .ok (true, { w with kern := w.kern.tock 1 }) :=
  kernelCall_ok (by rw [h]; rfl)

/-- There is no memory. -/
theorem calloc_fails {w : World} (h : w.kern.answer.fails = true) :
    calloc w = .ok (false, { w with kern := w.kern.tock 1 }) :=
  kernelCall_ok (by rw [h]; rfl)

theorem calloc_calm {w : World} (hc : w.kern.host.Calm) :
    calloc w = .ok (true, { w with kern := w.kern.tock 1 }) := calloc_ok (Kernel.answer_fails hc)

/-! ## The table of descriptors -/

/-- The file that a path denotes now, for `origin`. -/
def denotes (path : Path) : Sys (Option Nat) :=
  kernelCall (fun k => (k.files.names path, k))

theorem denotes_ok {w : World} {path : Path} {o : Option Nat}
    (h : w.kern.files.names path = o) : denotes path w = .ok (o, w) :=
  kernelCall_ok (by rw [h])

/-- `file_info_list_add`: a new entry at the end of the list; the result says
    whether there was memory for it.  No existing entry is looked for. -/
def file_info_list_add (fd : Int) (path : Path) (origin : Option Nat) : Sys Bool := do
  if (← calloc) then
    fun w => .ok (true, { w with file_info_list := w.file_info_list ++ [⟨fd, path, origin⟩] })
  else pure false

/-- `file_info_list_query_by_fd`: the first entry with this descriptor. -/
def file_info_list_query_by_fd (fd : Int) : Sys (Option FileInfo) :=
  fun w => .ok (w.file_info_list.find? (fun e => e.file_descriptor = fd), w)

/-- `file_info_list_remove_by_fd`: the first entry with this descriptor goes. -/
def file_info_list_remove_by_fd (fd : Int) : Sys Unit :=
  fun w => .ok ((), { w with
    file_info_list := w.file_info_list.eraseP (fun e => e.file_descriptor = fd) })

/-- The descriptor has an entry. -/
def World.Tracked (w : World) (fd : Int) : Prop :=
  ∃ e ∈ w.file_info_list, e.file_descriptor = fd

theorem query_ok (fd : Int) (w : World) : file_info_list_query_by_fd fd w =
    .ok (w.file_info_list.find? (fun e => e.file_descriptor = fd), w) := rfl

theorem remove_ok (fd : Int) (w : World) : file_info_list_remove_by_fd fd w =
    .ok ((), { w with
      file_info_list := w.file_info_list.eraseP (fun e => e.file_descriptor = fd) }) :=
  rfl

theorem add_ok {w : World} (h : w.kern.answer.fails = false) (fd : Int) (path : Path)
    (origin : Option Nat) :
    file_info_list_add fd path origin w =
      .ok (true, { kern := w.kern.tock 1,
                   file_info_list := w.file_info_list ++ [⟨fd, path, origin⟩] }) := by
  rw [file_info_list_add, bind_ok (calloc_ok h)]
  rfl

/-- There is no memory for an entry. -/
theorem add_fails {w : World} (h : w.kern.answer.fails = true) (fd : Int) (path : Path)
    (origin : Option Nat) :
    file_info_list_add fd path origin w = .ok (false, { w with kern := w.kern.tock 1 }) := by
  rw [file_info_list_add, bind_ok (calloc_fails h)]
  rfl

theorem add_calm {w : World} (hc : w.kern.host.Calm) (fd : Int) (path : Path)
    (origin : Option Nat) :
    file_info_list_add fd path origin w =
      .ok (true, { kern := w.kern.tock 1,
                   file_info_list := w.file_info_list ++ [⟨fd, path, origin⟩] }) :=
  add_ok (Kernel.answer_fails hc) fd path origin

/-- An entry is added, or there is no memory for it. -/
theorem add_inv {w w' : World} {fd : Int} {path : Path} {origin : Option Nat} {b : Bool}
    (h : file_info_list_add fd path origin w = .ok (b, w')) :
    b = !w.kern.answer.fails ∧ w'.kern = w.kern.tock 1 ∧ w'.file_info_list =
      if b then w.file_info_list ++ [⟨fd, path, origin⟩] else w.file_info_list := by
  cases hmem : w.kern.answer.fails with
  | true =>
      obtain ⟨rfl, rfl⟩ :=
        Prod.mk.inj (Except.ok.inj ((add_fails hmem fd path origin).symm.trans h))
      exact ⟨rfl, rfl, rfl⟩
  | false =>
      obtain ⟨rfl, rfl⟩ := Prod.mk.inj (Except.ok.inj ((add_ok hmem fd path origin).symm.trans h))
      exact ⟨rfl, rfl, rfl⟩

/-- A query finds an entry exactly for the tracked descriptors. -/
theorem query_isSome_iff {w : World} {fd : Int} :
    (w.file_info_list.find? (fun e => e.file_descriptor = fd)).isSome = true
      ↔ w.Tracked fd := by
  rw [List.find?_isSome]
  simp [World.Tracked]

/-- The last entry of a descriptor that is tracked once is the one a query finds. -/
theorem query_append_once {l : List FileInfo} {fd : Int} {e : FileInfo}
    (he : e.file_descriptor = fd)
    (honce : (l ++ [e]).countP (fun e => e.file_descriptor = fd) = 1) :
    (l ++ [e]).find? (fun e => e.file_descriptor = fd) = some e := by
  rw [List.countP_append, List.countP_singleton, if_pos (by simp [he])] at honce
  have hnone : l.find? (fun e => e.file_descriptor = fd) = none := by
    rw [List.find?_eq_none]
    exact List.countP_eq_zero.mp (by omega)
  rw [List.find?_append, hnone, Option.none_or]
  exact List.find?_cons_of_pos (by simp [he])

/-! ## The shape of a hook -/

/-- Every hook starts alike: it fails when the library is not loaded, passes
    through when encryption is off for this process, and else does its own work. -/
def hooked {α : Type} (env : Env) (dead : α) (raw body : Sys α) : Sys α :=
  if env.linker_running_state = false then pure dead
  else if env.is_trust_process = false ∨ env.get_domain_state = false then raw
  else body

theorem hooked_active {α : Type} {env : Env} (h : env.Active) (dead : α)
    (raw body : Sys α) : hooked env dead raw body = body := by
  obtain ⟨h1, h2, h3⟩ := h
  rw [hooked, if_neg (by rw [h1]; decide), if_neg (by rw [h2, h3]; decide)]

/-- The three ways through a hook that returned. -/
theorem hooked_inv {α : Type} {env : Env} {dead a : α} {raw body : Sys α} {w w' : World}
    (h : hooked env dead raw body w = .ok (a, w')) :
    (a = dead ∧ w' = w) ∨
      (env.linker_running_state = true ∧ ¬ env.Active ∧ raw w = .ok (a, w')) ∨
      (env.Active ∧ body w = .ok (a, w')) := by
  rw [hooked] at h
  by_cases hload : env.linker_running_state = false
  · rw [if_pos hload] at h
    exact .inl (pure_inv h)
  · rw [if_neg hload] at h
    have hloaded : env.linker_running_state = true := by simpa using hload
    by_cases hoff : env.is_trust_process = false ∨ env.get_domain_state = false
    · rw [if_pos hoff] at h
      refine .inr (.inl ⟨hloaded, ?_, h⟩)
      rintro ⟨-, h2, h3⟩
      rcases hoff with ht | hd
      · cases h2.symm.trans ht
      · cases h3.symm.trans hd
    · rw [if_neg hoff] at h
      obtain ⟨h2, h3⟩ := not_or.mp hoff
      exact .inr (.inr ⟨⟨hloaded, by simpa using h2, by simpa using h3⟩, h⟩)

/-- What both ways through a hook leave alone, the hook leaves alone. -/
theorem hooked_stays {α : Type} {R : World → World → Prop} [IsPreorder World R] {env : Env}
    {dead : α} {raw body : Sys α} (hraw : Stays R raw) (hbody : Stays R body) :
    Stays R (hooked env dead raw body) := .ite (.pure dead) (.ite hraw hbody)

/-! ## What leaves the descriptors and the table alone -/

/-- Every descriptor is on the file it was on, and the table is the same. -/
def Framed (w w' : World) : Prop :=
  Kernel.Kept w.kern w'.kern ∧ w'.file_info_list = w.file_info_list

instance : IsPreorder World Framed where
  refl w := ⟨.refl w.kern, rfl⟩
  trans _ _ _ h h' := ⟨h.1.trans h'.1, h'.2.trans h.2⟩

/-- Whenever `m` returns, descriptors and table have stayed. -/
abbrev Frames {α : Type} (m : Sys α) : Prop := Stays Framed m

namespace Frames

variable {α β : Type}

theorem call {f : Kernel → α × Kernel} (hf : ∀ k, Kernel.Kept k (f k).2) :
    Frames (kernelCall f) := by
  intro w a w' h
  obtain ⟨-, rfl⟩ := Prod.mk.inj (Except.ok.inj h)
  exact ⟨hf w.kern, rfl⟩

theorem read (fd : Int) (n : Nat) : Frames (linker_read fd n) :=
  call fun k => k.kept_read fd n

theorem pread (fd : Int) (n : Nat) (off : Int) : Frames (linker_pread fd n off) :=
  call fun k => k.kept_pread fd n off

theorem write (fd : Int) (b : List UInt8) : Frames (linker_write fd b) :=
  call fun k => k.kept_write fd b

theorem pwrite (fd : Int) (b : List UInt8) (off : Int) : Frames (linker_pwrite fd b off) :=
  call fun k => k.kept_pwrite fd b off

theorem lseek (fd : Int) (off : Int) (whence : Whence) : Frames (linker_lseek fd off whence) :=
  call fun k => k.kept_lseek fd off whence

theorem stat (path : Path) : Frames (linker_stat path) := call fun k => k.kept_stat path

theorem fstat (fd : Int) : Frames (linker_fstat fd) := call fun k => k.kept_fstat fd

theorem access (path : Path) : Frames (access path) := call fun k => .refl k

theorem getfl (fd : Int) : Frames (fcntl_getfl fd) := call fun k => .refl k

theorem denotes (path : Path) : Frames (denotes path) := call fun k => .refl k

theorem alloc : Frames calloc := call fun k => .tock k 1

theorem query (fd : Int) : Frames (file_info_list_query_by_fd fd) := by
  intro w a w' h
  obtain ⟨-, rfl⟩ := Prod.mk.inj (Except.ok.inj h)
  exact ⟨.refl _, rfl⟩

/-- Opening a file, working with it and closing it again. -/
theorem opening {path : Path} {flags : Flags} {m : Int → Sys α} {g : α → β} {n : Sys β}
    (hm : ∀ fd, Frames (m fd)) (hn : Frames n) :
    Frames (do
      let fd ← linker_open path flags
      if fd > 0 then do
        let r ← m fd
        let _ ← linker_close fd
        Pure.pure (g r)
      else n) := by
  intro w b w' h
  obtain ⟨fd, w₁, h1, h2⟩ := bind_inv h
  rcases linker_open_inv h1 with ⟨rfl, rfl⟩ | ⟨i, k₁, rfl, hopen⟩
  · -- the call failed
    obtain ⟨hk, hl⟩ := hn h2
    exact ⟨(Kernel.Kept.tock _ 1).trans hk, hl⟩
  · by_cases hpos : fd > 0
    · rw [if_pos hpos] at h2
      obtain ⟨r, w₂, h3, h4⟩ := bind_inv h2
      obtain ⟨c, w₃, h5, h6⟩ := bind_inv h4
      obtain ⟨hk, hl⟩ := hm fd h3
      obtain ⟨-, rfl⟩ := kernelCall_inv h5
      obtain ⟨-, rfl⟩ := Prod.mk.inj (Except.ok.inj h6)
      exact ⟨hopen.gained.close hk, hl⟩
    · rw [if_neg hpos] at h2
      obtain ⟨hk, hl⟩ := hn h2
      exact ⟨hopen.gained.kept.trans hk, hl⟩

end Frames

/-! ## What changes no file -/

/-- The files and the host are the same. -/
def Still (w w' : World) : Prop := Kernel.Unwritten w.kern w'.kern

instance : IsPreorder World Still where
  refl _ := ⟨rfl, rfl⟩
  trans _ _ _ h h' := ⟨h'.1.trans h.1, h'.2.trans h.2⟩

namespace Still

theorem call {α : Type} {f : Kernel → α × Kernel} (hf : ∀ k, Kernel.Unwritten k (f k).2) :
    Stays Still (kernelCall f) := by
  intro w a w' h
  obtain ⟨-, rfl⟩ := kernelCall_inv h
  exact hf w.kern

theorem opens (path : Path) {flags : Flags} (hcr : flags.creat = false)
    (ht : flags.trunc = false) : Stays Still (linker_open path flags) :=
  call fun k => k.unwritten_open path hcr ht

theorem read (fd : Int) (n : Nat) : Stays Still (linker_read fd n) :=
  call fun k => k.unwritten_read fd n

theorem pread (fd : Int) (n : Nat) (off : Int) : Stays Still (linker_pread fd n off) :=
  call fun k => k.unwritten_pread fd n off

theorem lseek (fd : Int) (off : Int) (whence : Whence) :
    Stays Still (linker_lseek fd off whence) := call fun k => k.unwritten_lseek fd off whence

theorem dup (fd : Int) : Stays Still (linker_dup fd) := call fun k => k.unwritten_dup fd

theorem close (fd : Int) : Stays Still (linker_close fd) := call fun k => k.unwritten_close fd

theorem stat (path : Path) : Stays Still (linker_stat path) :=
  call fun k => k.unwritten_stat path

theorem fstat (fd : Int) : Stays Still (linker_fstat fd) := call fun k => k.unwritten_fstat fd

theorem getfl (fd : Int) : Stays Still (fcntl_getfl fd) := call fun _ => ⟨rfl, rfl⟩

theorem denotes (path : Path) : Stays Still (denotes path) := call fun _ => ⟨rfl, rfl⟩

theorem alloc : Stays Still calloc := call fun _ => ⟨rfl, rfl⟩

theorem query (fd : Int) : Stays Still (file_info_list_query_by_fd fd) := by
  intro w a w' h
  obtain ⟨-, rfl⟩ := Prod.mk.inj (Except.ok.inj h)
  exact ⟨rfl, rfl⟩

theorem remove (fd : Int) : Stays Still (file_info_list_remove_by_fd fd) := by
  intro w a w' h
  obtain ⟨-, rfl⟩ := Prod.mk.inj (Except.ok.inj h)
  exact ⟨rfl, rfl⟩

theorem add (fd : Int) (path : Path) (origin : Option Nat) :
    Stays Still (file_info_list_add fd path origin) := by
  intro w b w' h
  obtain ⟨-, hkern, -⟩ := add_inv h
  show Kernel.Unwritten w.kern w'.kern
  rw [hkern]
  exact ⟨rfl, rfl⟩

end Still

/-! ## A small process -/

/-- Every path is supported and none is special. -/
def aDevice : Device where
  aes := zeroBlockAes
  get_process_name := none
  is_support_file_type_by_path := fun _ => 1
  is_support_special_file_type_by_path := fun _ => 0

def activeEnv : Env := ⟨true, true, true⟩

end TeProgram
