/-
# The host's files

What the emulator asks of the system it runs on: names that lead to files, files that outlive their
names while a stream is open, and streams that may hold back what was written to them. Only the
calls that `CpmFileSystem` makes are here.

A stream's writes reach the file when the stream is flushed, moved or closed; `buffered` is off
where they are assumed to reach it at once. `nocase` is on where two names that differ only in the
case of their letters are one name.
-/
import Cpm8000.Sys.Bytes

namespace Cpm8000.Host

open Cpm8000.Sys

/-- A C string, without its end mark. -/
abbrev Str := List Byte

/-- `toupper` in the C locale. -/
def toupper (c : Byte) : Byte := if 0x61 ≤ c ∧ c ≤ 0x7a then c - 0x20 else c

/-! ## 1. Files -/

/-- A name in a host directory. -/
structure Node where
  path : Str
  inode : ℕ
  isdir : Bool
  readonly : Bool

/-- An open stream; `pending` is what was written just before `pos` and is not in the file yet. -/
structure Stream where
  inode : ℕ
  writable : Bool
  pos : ℕ
  pending : List Byte

structure HostFs where
  nodes : List Node
  /-- The content of the files. -/
  data : ℕ → List Byte
  /-- The next inode. -/
  fresh : ℕ
  nocase : Bool
  buffered : Bool
  /-- The paths a file can be made at. -/
  can_create : Str → Bool

/-- `buf` written into `l` at `p`, with zeros in the gap. -/
def overwrite (l : List Byte) (p : ℕ) (buf : List Byte) : List Byte :=
  (l ++ List.replicate (p - l.length) 0).take p ++ buf ++ l.drop (p + buf.length)

theorem length_overwrite (l : List Byte) (p : ℕ) (buf : List Byte) :
    (overwrite l p buf).length = max l.length (p + buf.length) := by
  simp only [overwrite, List.length_append, List.length_take, List.length_replicate,
    List.length_drop]
  omega

/-! ## 2. Calls on names -/

namespace HostFs

/-- What names are compared by. -/
def key (h : HostFs) (path : Str) : Str := if h.nocase then path.map toupper else path

def lookup (h : HostFs) (path : Str) : Option Node :=
  h.nodes.find? fun n => h.key n.path = h.key path

/-- `stat`: the node, for its kind and the size of its file. -/
def stat (h : HostFs) (path : Str) : Option Node := h.lookup path

def st_size (h : HostFs) (n : Node) : ℕ := (h.data n.inode).length

def setData (h : HostFs) (inode : ℕ) (l : List Byte) : HostFs :=
  { h with data := Function.update h.data inode l }

/-- `fopen(path, "r+b")`. -/
def fopen_rp (h : HostFs) (path : Str) : Option Stream :=
  match h.lookup path with
  | none => none
  | some n => if n.isdir ∨ n.readonly then none else some ⟨n.inode, true, 0, []⟩

/-- `fopen(path, "rb")`. -/
def fopen_r (h : HostFs) (path : Str) : Option Stream :=
  (h.lookup path).map fun n => ⟨n.inode, false, 0, []⟩

/-- `fopen(path, "w+b")`. -/
def fopen_wp (h : HostFs) (path : Str) : HostFs × Option Stream :=
  match h.lookup path with
  | some n =>
    if n.isdir ∨ n.readonly then (h, none)
    else (h.setData n.inode [], some ⟨n.inode, true, 0, []⟩)
  | none =>
    if h.can_create path then
      ({ h.setData h.fresh [] with
          nodes := h.nodes ++ [⟨path, h.fresh, false, false⟩]
          fresh := h.fresh + 1 }, some ⟨h.fresh, true, 0, []⟩)
    else (h, none)

/-- `unlink(path) == 0`. -/
def unlink (h : HostFs) (path : Str) : HostFs × Bool :=
  match h.lookup path with
  | none => (h, false)
  | some n =>
    if n.isdir then (h, false)
    else ({ h with nodes := h.nodes.filter fun x => h.key x.path ≠ h.key path }, true)

/-- `rename(old, new) == 0`, of a file. -/
def rename (h : HostFs) (old new : Str) : HostFs × Bool :=
  match h.lookup old with
  | none => (h, false)
  | some n =>
    match h.lookup new with
    | some t =>
      if t.isdir ∨ n.isdir then (h, false)
      else if h.key old = h.key new then (h, true)
      else
        ({ h with nodes :=
            (h.nodes.filter fun x => h.key x.path ≠ h.key new).map fun x =>
              if h.key x.path = h.key old then { x with path := new } else x }, true)
    | none =>
      if h.can_create new ∧ ¬ n.isdir then
        ({ h with nodes := h.nodes.map fun x =>
              if h.key x.path = h.key old then { x with path := new } else x }, true)
      else (h, false)

/-! ## 3. Calls on streams -/

/-- What was written and held back reaches the file. -/
def fflush (h : HostFs) (fp : Stream) : HostFs × Stream :=
  match fp.pending with
  | [] => (h, fp)
  | b :: l =>
    (h.setData fp.inode
      (overwrite (h.data fp.inode) (fp.pos - (b :: l).length) (b :: l)), { fp with pending := [] })

def fclose (h : HostFs) (fp : Stream) : HostFs := (h.fflush fp).1

/-- `fseek(fp, offset, SEEK_SET)`. -/
def fseek (h : HostFs) (fp : Stream) (offset : ℕ) : HostFs × Stream :=
  ((h.fflush fp).1, { (h.fflush fp).2 with pos := offset })

/-- `fseek(fp, 0, SEEK_END)`. -/
def fseek_end (h : HostFs) (fp : Stream) : HostFs × Stream :=
  ((h.fflush fp).1,
    { (h.fflush fp).2 with pos := ((h.fflush fp).1.data fp.inode).length })

/-- The bytes `fread` gets of the `n` asked for. -/
def fread (h : HostFs) (fp : Stream) (n : ℕ) : List Byte := slice (h.data fp.inode) fp.pos n

/-- `fwrite`, with the number of bytes it took. -/
def fwrite (h : HostFs) (fp : Stream) (buf : List Byte) : HostFs × Stream × ℕ :=
  if fp.writable then
    if h.buffered then
      (h, { fp with pos := fp.pos + buf.length, pending := fp.pending ++ buf }, buf.length)
    else
      (h.setData fp.inode (overwrite (h.data fp.inode) fp.pos buf),
        { fp with pos := fp.pos + buf.length }, buf.length)
  else (h, fp, 0)

/-! ## 4. Directories -/

/-- The name a path has in a directory. -/
def entry_name (h : HostFs) (dir path : Str) : Option Str :=
  let d_name := path.drop (dir.length + 1)
  if h.key (path.take (dir.length + 1)) = h.key (dir ++ [0x2f]) ∧ d_name ≠ [] ∧ 0x2f ∉ d_name then
    some d_name
  else none

/-- `opendir`, with the names `readdir` is going to return, without `.` and `..`. -/
def opendir (h : HostFs) (path : Str) : Option (List Str) :=
  match h.lookup path with
  | none => none
  | some n => if n.isdir then some (h.nodes.filterMap fun x => h.entry_name path x.path) else none

/-- Every name is there once, and no name has an end mark in it. -/
structure WellFormed (h : HostFs) : Prop where
  unique : h.nodes.Pairwise fun a b => h.key a.path ≠ h.key b.path
  ended : ∀ n ∈ h.nodes, 0 ∉ n.path

theorem key_append (h : HostFs) (a b : Str) : h.key (a ++ b) = h.key a ++ h.key b := by
  unfold key
  split_ifs
  · exact List.map_append
  · rfl

theorem lookup_some {h : HostFs} {path : Str} {n : Node} (hl : h.lookup path = some n) :
    n ∈ h.nodes ∧ h.key n.path = h.key path := by
  refine ⟨List.mem_of_find?_eq_some hl, ?_⟩
  simpa using List.find?_some hl

theorem WellFormed.lookup_eq {h : HostFs} (hw : h.WellFormed) {path : Str} {n : Node}
    (hn : n ∈ h.nodes) (hkey : h.key n.path = h.key path) : h.lookup path = some n := by
  have hfound : (h.lookup path).isSome := by
    rw [lookup, List.find?_isSome]
    exact ⟨n, hn, by simpa using hkey⟩
  obtain ⟨m, hm⟩ := Option.isSome_iff_exists.mp hfound
  obtain ⟨hmem, hmkey⟩ := lookup_some hm
  rw [hm]
  by_contra hne
  have hne' : m ≠ n := fun heq => hne (congrArg some heq)
  have hsymm : Std.Symm fun a b : Node => h.key a.path ≠ h.key b.path := ⟨fun _ _ hab => hab.symm⟩
  exact hw.unique.forall hmem hn hne' (hmkey.trans hkey.symm)

theorem entry_name_some {h : HostFs} {dir path d_name : Str} (he : h.entry_name dir path = some d_name) :
    h.key path = h.key (dir ++ 0x2f :: d_name) ∧ d_name ≠ [] ∧ 0x2f ∉ d_name ∧ ∀ c ∈ d_name, c ∈ path := by
  unfold entry_name at he
  dsimp only at he
  split_ifs at he with hc
  obtain rfl := Option.some.inj he
  refine ⟨?_, hc.2.1, hc.2.2, fun c => List.mem_of_mem_drop⟩
  rw [List.append_cons, key_append, ← hc.1, ← key_append, List.take_append_drop]

end HostFs

end Cpm8000.Host
