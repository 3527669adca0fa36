import Xv6Shed.ExecArgs

/-!
# Segments that wrap

The check `va + memsz > sz` of `exec` does not see that the sum has wrapped. Such a segment is
loaded below the new block, and if the old memory lies there, over the arguments, between the
pass that adds up their lengths and the pass that copies them.
-/

namespace Xv6Shed
open Bytes Xv6Shed.Interval Ram

namespace Program

variable {NINODE e n : ℕ} {k k' : Program NINODE} {driver : ℤ} {path : List UInt8}
  {argv : List UInt32} {strs : List (List UInt8)} {live : List Interval} {p : Space}

/-- Reading the file that `exec` finds -/
def reader (driver : ℤ) (path : List UInt8) (k : Program NINODE) : Option Exec.Reader :=
  match k.fs.namei k.cwd path with
  | .ok (some ip, s) => (s.ilock ip).toOption.map fun s off n => s.readi driver ip off n
  | _ => none

def segments (driver : ℤ) (path : List UInt8) (k : Program NINODE) : List Proghdr :=
  ((k.reader driver path).map Exec.fileSegments).getD []

/-- A device is no executable, and a read of any other file returns at most what it is asked for. -/
theorem read_le {read : Exec.Reader} {l : Exec.Loaded} {q : Space}
    (hread : k.reader driver path = some read) (hl : Exec.Loads read argv p l q) {off : ℕ} {r : ℤ}
    {b : Buffer} (h : read off n = .ok (r, b)) : r ≤ n := by
  unfold reader at hread
  split at hread
  case h_2 => cases hread
  case h_1 ip s _ =>
    obtain ⟨s', -, rfl⟩ := Option.map_eq_some_iff.mp hread
    refine readi_le (fun hdev => ?_) h
    obtain ⟨r, b, hb, hmagic⟩ := hl.magic
    unfold Fs.readi at hb
    dsimp only at hb
    rw [if_pos hdev] at hb
    cases hb
    exact absurd hmagic (by decide)

theorem exec_zero (h : k.exec driver path argv = .ok (0, k')) :
    ∃ read l q, k.reader driver path = some read ∧ Exec.load read argv k.space = .ok (some l, q) ∧
      Exec.commit argv l q = .ok k'.space := by
  unfold exec at h
  obtain ⟨⟨o, s⟩, hname, h⟩ := bind_eq_ok.mp h
  cases o with
  | none => cases h
  | some ip =>
    dsimp only at h
    obtain ⟨s', hlock, h⟩ := bind_eq_ok.mp h
    obtain ⟨⟨o, q⟩, hload, h⟩ := bind_eq_ok.mp h
    cases o with
    | none =>
      obtain ⟨_, -, h⟩ := bind_eq_ok.mp h
      cases h
    | some l =>
      dsimp only at h
      obtain ⟨_, -, h⟩ := bind_eq_ok.mp h
      obtain ⟨p', hcommit, h⟩ := bind_eq_ok.mp h
      cases h
      refine ⟨_, l, q, ?_, hload, hcommit⟩
      unfold reader
      rw [hname]
      dsimp only
      rw [hlock]
      rfl

theorem arg_of_fetchstr {addr a : UInt32} {len : ℕ} (hp : p.Process e live)
    (h : p.fetchstr addr = some (a, len)) :
    p.Arg a ((List.range len).map fun j => p.ram.bytes (a + UInt32.ofNat j)) := by
  have hb := hp.bounds
  have htop := hp.top
  unfold Space.fetchstr at h
  split_ifs at h with hge
  obtain ⟨n, hfirst, heq⟩ := Option.map_eq_some_iff.mp h
  obtain ⟨rfl, rfl⟩ := Prod.mk.inj heq
  have hlt : addr.toNat < p.sz.toNat := by
    rw [ge_iff_le, UInt32.le_iff_toNat_le] at hge
    omega
  have hsub : (p.sz - addr).toNat = p.sz.toNat - addr.toNat :=
    UInt32.toNat_sub_of_le _ _ (UInt32.le_iff_toNat_le.mpr (Nat.le_of_lt hlt))
  obtain ⟨-, hn, hzero⟩ := first_eq_some hfirst
  rw [hsub] at hn
  have ha : (p.mem + addr).toNat = p.mem.toNat + addr.toNat := by
    rw [UInt32.toNat_add]
    exact Nat.mod_eq_of_lt (by omega)
  have hbyte : ∀ j, p.ram.bytes (p.mem + addr + UInt32.ofNat j) = p.user (addr.toNat + j) := by
    intro j
    rw [Space.user, UInt32.ofNat_add, UInt32.ofNat_toNat, UInt32.add_assoc]
  refine ⟨⟨?_, ?_⟩, ?_, ?_⟩
  · rw [List.mem_map]
    rintro ⟨j, hj, h0⟩
    have := first_lt hfirst (Nat.zero_le j) (List.mem_range.mp hj)
    rw [← hbyte, h0] at this
    cases this
  · intro j hj
    rw [List.length_map, List.length_range] at hj
    rcases Nat.lt_or_eq_of_le hj with hj | rfl
    · rw [List.getD_eq_getElem _ _ (by simpa using hj)]
      simp
    · rw [hbyte, List.getD_eq_default _ _ (by simp)]
      exact eq_of_beq hzero
  · omega
  · rw [List.length_map, List.length_range]
    omega

theorem args_of_argvLoop {uargv : UInt32} (hp : p.Process e live)
    (h : argvLoop p n uargv = some argv) :
    argv.length < n ∧ ∃ strs, List.Forall₂ p.Arg argv strs := by
  induction n generalizing uargv argv with
  | zero => cases h
  | succ n ih =>
    unfold argvLoop at h
    cases hint : p.fetchint uargv with
    | none =>
      rw [hint] at h
      cases h
    | some uarg =>
      rw [hint] at h
      dsimp only at h
      split_ifs at h with h0
      · cases h
        exact ⟨Nat.succ_pos n, [], .nil⟩
      cases hstr : p.fetchstr uarg.toUInt32 with
      | none =>
        rw [hstr] at h
        cases h
      | some r =>
        obtain ⟨a, len⟩ := r
        rw [hstr] at h
        obtain ⟨rest, hrest, rfl⟩ := Option.map_eq_some_iff.mp h
        obtain ⟨hlen, strs, hargs⟩ := ih hrest
        exact ⟨Nat.succ_lt_succ hlen, _ :: strs, .cons (arg_of_fetchstr hp hstr) hargs⟩

/-- `sys_exec` fails with nothing done, or it is a call of `exec` with a path and at most 19
arguments that are strings in the memory of the process. -/
theorem sysExec_cases (hp : k.space.Process e live) :
    k.sysExec driver = .ok (-1, k) ∨ ∃ a path argv strs, k.space.Arg a path ∧ argv.length ≤ 19 ∧
      List.Forall₂ k.space.Arg argv strs ∧ k.sysExec driver = k.exec driver path argv := by
  unfold sysExec
  split
  case h_2 => exact .inl rfl
  case h_1 a len uargv hpath _ =>
    cases hargv : argvLoop k.space 20 uargv.toUInt32 with
    | none => exact .inl rfl
    | some argv =>
      obtain ⟨hlen, strs, hargs⟩ := args_of_argvLoop hp hargv
      refine .inr ⟨a, _, argv, strs, ?_, Nat.lt_succ_iff.mp hlen, hargs, rfl⟩
      unfold Space.argstr at hpath
      split at hpath
      · cases hpath
      · exact arg_of_fetchstr hp hpath

/-- The argument block of a successful `exec` is right if no segment that is loaded ends past the
last address. -/
theorem exec_argument_block (hp : k.space.Process e live)
    (hargs : List.Forall₂ k.space.Arg argv strs)
    (hsum : Exec.memBytes (k.segments driver path) + Exec.argSize strs + PAGE < 2 ^ 32)
    (hwrap : ∀ ph ∈ k.segments driver path, ph.va.toNat + ph.memsz.toNat < 2 ^ 32)
    (h : k.exec driver path argv = .ok (0, k')) :
    ∃ argp str, Exec.ArgBlock argp str strs k'.space := by
  obtain ⟨read, l, q, hread, hload, hcommit⟩ := exec_zero h
  have hl := Exec.load_some hload
  unfold segments at hsum hwrap
  rw [hread] at hsum hwrap
  have hspares := hl.spares hp hargs (fun _ _ _ _ h => read_le hread hl h) hwrap
  exact Exec.commit_argBlock hp hl hargs hsum hspares hcommit

/-- An executable whose only segment is 16 zero bytes at `va` -/
def elfFile (va : UInt32) : Buffer :=
  put32 (put32 (put32 (put32 (put32 (put32 zeros 0 ELF_MAGIC) 28 52) 44 1) 52 ELF_PROG_LOAD)
    60 va) 72 16

/-- A disk with the executable as `/a` -/
def elfDisk (va : UInt32) : Disk := fun b =>
  if b = 2 then
    Dinode.store (Dinode.store zeros 64
      ⟨T_DIR, 0, 0, 1, 16, fun j => if j.val = 0 then 100 else 0⟩) 128
      ⟨T_FILE, 0, 0, 1, 84, fun j => if j.val = 0 then 101 else 0⟩
  else if b = 100 then Dirent.bytes ⟨2, [97]⟩
  else if b = 101 then elfFile va
  else zeros

/-- A process with one page, the string `A` at its end, and two free pages above it -/
def stringAtEnd : Space where
  free := [⟨8192, 8192⟩]
  ram := ⟨fun x => if x = 8190 then 65 else 0, fun _ => false⟩
  mem := 4096
  sz := 4096
  esp := 0
  seg := (4096, 4095)

/-- The process is about to execute `/a`. -/
def oneSegment (va : UInt32) : Program 2 where
  fs := ⟨fun _ => elfDisk va, fun _ => ⟨0, 0, 0, false, false, .zero⟩⟩
  cwd := none
  space := stringAtEnd
  name := []
  eip := 0

theorem process_stringAtEnd :
    stringAtEnd.Process 0 [⟨4096, 4096⟩, ⟨16384, 256 * PAGE - 12288⟩] where
  sound := by
    have hpage : PAGE = 4096 := rfl
    have hstart : kstart 0 = 4096 := by decide
    refine ⟨?_, ?_, ?_, ?_, ?_, ?_, ?_, ?_⟩
    · exact separated_cons.mpr ⟨fun _ h => absurd h List.not_mem_nil, .nil⟩
    · decide
    · decide
    · decide
    · decide
    · decide
    · decide
    · intro x
      simp only [stringAtEnd, covers_cons, not_covers_nil, Has, stop, hstart, hpage, or_false]
      omega
  mem := List.mem_cons_self
  top := by decide

/-- The process calls `exec("/a", argv)`, where `argv` has the string at its end. -/
def execCall : Program 2 :=
  { oneSegment 0 with space := { stringAtEnd with ram := ⟨fun x => (List.lookup x [(8190, 65),
    (4100, 16), (4104, 32), (4112, 47), (4113, 97), (4128, 254), (4129, 15)]).getD 0,
    fun _ => false⟩ } }

theorem sysExec_execCall : ∃ a path argv strs, execCall.space.Arg a path ∧ argv.length ≤ 19 ∧
    List.Forall₂ execCall.space.Arg argv strs ∧
    execCall.sysExec 0 = execCall.exec 0 path argv := by
  have hp : execCall.space.Process 0 _ :=
    ⟨process_stringAtEnd.sound, process_stringAtEnd.mem, process_stringAtEnd.top⟩
  have hok : (execCall.sysExec 0).toOption.any (fun r => r.1 == 0) = true := by decide +kernel
  refine (sysExec_cases hp).resolve_left fun h => ?_
  rw [h] at hok
  cases hok

theorem arg_stringAtEnd : List.Forall₂ stringAtEnd.Arg [8190] [[65]] := by
  refine .cons ⟨⟨by decide, ?_⟩, by decide, by decide⟩ .nil
  intro j hj
  have hcases : j = 0 ∨ j = 1 := by
    change j ≤ 1 at hj
    omega
  rcases hcases with rfl | rfl
  · rfl
  · rfl

theorem eq_ok_of_toOption {α : Type} {x : Except Fault α} {a : α} (h : x.toOption = some a) :
    x = .ok a := by
  cases x with
  | error => cases h
  | ok => exact congrArg Except.ok (Option.some.inj h)

/-- A segment at 0 is loaded into the new block, and the program finds its argument. -/
theorem exec_argument_block_at_zero : ∃ k', (oneSegment 0).exec 0 [47, 97] [8190] = .ok (0, k') ∧
    ∃ argp str, Exec.ArgBlock argp str [[65]] k'.space := by
  have hrun : (((oneSegment 0).exec 0 [47, 97] [8190]).toOption.any fun r => r.1 = 0) = true := by
    decide +kernel
  have hsegs : (oneSegment 0).segments 0 [47, 97] = [⟨ELF_PROG_LOAD, 0, 0, 0, 16⟩] := by
    decide +kernel
  obtain ⟨⟨_, k'⟩, hexec, hr⟩ := Option.any_eq_true _ _ |>.mp hrun
  obtain rfl := of_decide_eq_true hr
  have hexec := eq_ok_of_toOption hexec
  refine ⟨k', hexec, exec_argument_block process_stringAtEnd arg_stringAtEnd ?_ ?_ hexec⟩
  · rw [hsegs]
    decide
  · rw [hsegs]
    decide

/-- A segment that ends at 2³² overwrites the argument before it is copied. -/
theorem exec_overwrites_argument : ∃ k',
    (oneSegment 0xfffffff0).exec 0 [47, 97] [8190] = .ok (0, k') ∧
    stringAtEnd.Process 0 [⟨4096, 4096⟩, ⟨16384, 256 * PAGE - 12288⟩] ∧
    List.Forall₂ stringAtEnd.Arg [8190] [[65]] ∧
    Exec.memBytes ((oneSegment 0xfffffff0).segments 0 [47, 97]) + Exec.argSize [[65]] + PAGE <
      2 ^ 32 ∧
    ¬ ∃ argp str, Exec.ArgBlock argp str [[65]] k'.space := by
  -- the copy is the empty string in the last byte
  have hrun : (((oneSegment 0xfffffff0).exec 0 [47, 97] [8190]).toOption.any fun r =>
      r.1 = 0 ∧ r.2.space.sz = 8192 ∧ get32 r.2.space.user (r.2.space.esp.toNat + 8) = 8180 ∧
        get32 r.2.space.user 8180 = 8191) = true := by decide +kernel
  have hsegs : (oneSegment 0xfffffff0).segments 0 [47, 97] =
      [⟨ELF_PROG_LOAD, 0, 0xfffffff0, 0, 16⟩] := by decide +kernel
  obtain ⟨⟨_, k'⟩, hexec, hr⟩ := Option.any_eq_true _ _ |>.mp hrun
  obtain ⟨rfl, hsz, hargv, hptr⟩ := of_decide_eq_true hr
  refine ⟨k', eq_ok_of_toOption hexec, process_stringAtEnd, arg_stringAtEnd, ?_, ?_⟩
  · rw [hsegs]
    decide
  · rintro ⟨argp, str, hblock⟩
    have hin := hblock.inside
    have hstr := hin.2 0 Nat.zero_lt_one
    rw [show k'.space.sz.toNat = 8192 from congrArg UInt32.toNat hsz] at hin hstr
    obtain rfl : argp = 8180 := by
      have := congrArg UInt32.toNat (hblock.argv.symm.trans hargv)
      rwa [UInt32.toNat_ofNat_of_lt' (show argp < 2 ^ 32 by omega)] at this
    have hlast : str 0 = 8191 := by
      have := congrArg UInt32.toNat ((hblock.ptr 0 Nat.zero_lt_one).symm.trans hptr)
      rwa [UInt32.toNat_ofNat_of_lt' (show str 0 < 2 ^ 32 by omega)] at this
    rw [hlast] at hstr
    exact absurd hstr (by decide)

end Program

end Xv6Shed
